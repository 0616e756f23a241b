import PatternAutomata.Proofs.BreadthFirst
import PatternAutomata.Proofs.Guarded.Access

/-!
# Guarded explorations

The automaton of an exploration is made at the end from the keys and rows (`toAutomaton`).  The guarded
program makes it on the way: it creates a state when it meets a key, adds an arrow for each move, and has
all of them checked.  What it has made at any time is the automaton of the keys and rows so far,
with no initial state yet (`built`), so a state is there before an arrow needs it:

    explore origin accepts moves fuel account first =
      (explore moves fuel account first).mapError stop >>= fun e => .ok (e.toAutomaton origin accepting)
                                                                                   (explore_eq)

The moves may fail with a panic or with an error that is returned: `stop` says which.
-/

namespace PatternAutomata

namespace Guarded

open Exploration

variable {κ σ ε : Type} [StrictTotal κ]

/-- An automaton under construction, with the keys of its states. -/
structure Building (κ : Type) [StrictTotal κ] where
  automaton : Automaton := {}
  met : Numbering κ := Numbering.empty

/-! ## The program -/

section Program

variable (origin : κ → StateSet) (accepts : κ → Except (Stop ε) Bool)

/-- The state of a key, created when the key is new. -/
def stateFor (b : Building κ) (k : κ) : Except (Stop ε) (Building κ × State) :=
  match b.met.find? k with
  | some i => .ok (b, i)
  | none => do
    let i := b.automaton.size
    let a := b.automaton.addNode { name := Automaton.defaultName i, origin := some (origin k) }
    let flag ← accepts k
    let a ← served (a.setAccepting i flag)
    .ok (⟨a, b.met.add k⟩, i)

/-- Follows a move out of a state. -/
def addMove (source : State) (b : Building κ) (m : Label × κ) : Except (Stop ε) (Building κ) := do
  let (b, dest) ← stateFor origin accepts b m.2
  let a ← served (b.automaton.addTransition source m.1 dest)
  .ok { b with automaton := a }

/-- Does the next key, as long as there is one and `fuel` lasts.  Its state stands for its origin. -/
def advance (moves : σ → κ → Except (Stop ε) (σ × List (Label × κ))) :
    Nat → State → σ → Building κ → Except (Stop ε) (Building κ)
  | 0, _, _, b => .ok b
  | fuel + 1, source, account, b =>
    match b.met.keys[source]? with
    | none => .ok b
    | some k => do
      let n ← served (b.automaton.node source)
      demand (n.origin = some (origin k)) .unreachable
      let (account, row) ← moves account k
      let b ← row.foldlM (addMove origin accepts source) b
      advance moves fuel (source + 1) account b

/-- Explores from the first key, doing at most `fuel` keys. -/
def explore (moves : σ → κ → Except (Stop ε) (σ × List (Label × κ))) (fuel : Nat) (account : σ)
    (first : κ) : Except (Stop ε) Automaton := do
  let (b, start) ← stateFor origin accepts {} first
  let b ← advance origin accepts moves fuel 0 account b
  served (b.automaton.setInitial start)

end Program

/-! ## What has been made -/

/-- The automaton of the keys and rows so far. -/
def built (origin : κ → StateSet) (accepting : κ → Bool) (e : Exploration κ) : Building κ :=
  ⟨{ nodes := (e.toAutomaton origin accepting).nodes }, e.met⟩

variable {origin : κ → StateSet} {accepting : κ → Bool} {accepts : κ → Except (Stop ε) Bool}
  {met : Numbering κ} {rows : Array (List (Label × Nat))} {e : Exploration κ} {k : κ}

@[simp] theorem size_built : (built origin accepting e).automaton.size = e.met.keys.size :=
  size_toAutomaton

theorem built_congr {e' : Exploration κ} (hmet : e.met = e'.met)
    (hnodes : (e.toAutomaton origin accepting).nodes = (e'.toAutomaton origin accepting).nodes) :
    built origin accepting e = built origin accepting e' := by
  unfold built
  rw [hmet, hnodes]

/-- A row that is begun is empty. -/
theorem built_push_nil :
    built origin accepting ⟨met, rows.push []⟩ = built origin accepting ⟨met, rows⟩ := by
  refine built_congr rfl (Array.ext_getElem? fun i => ?_)
  rw [getElem?_nodes, getElem?_nodes]
  refine congrArg (Option.map · met.keys[i]?) (funext fun k => ?_)
  have hrow : ((rows.push [])[i]?).getD [] = rows[i]?.getD [] := by
    rw [Array.getElem?_push]
    split
    · next hi =>
      subst hi
      rw [Array.getElem?_eq_none (Nat.le_refl _)]
      rfl
    · rfl
  unfold node
  rw [hrow]

/-- A key without a number gets a node at the end. -/
theorem nodes_add (hk : k ∉ met.keys) (hle : rows.size ≤ met.keys.size) :
    (toAutomaton ⟨met.add k, rows⟩ origin accepting).nodes =
      (toAutomaton ⟨met, rows⟩ origin accepting).nodes.push
        { name := Automaton.defaultName met.keys.size
          accepting := accepting k
          origin := some (origin k) } := by
  have hsize : (toAutomaton ⟨met, rows⟩ origin accepting).nodes.size = met.keys.size := size_toAutomaton
  refine Array.ext_getElem? fun i => ?_
  rw [getElem?_nodes, Array.getElem?_push, hsize, getElem?_nodes, Numbering.keys_add_of_not_mem hk,
    Array.getElem?_push]
  by_cases hi : i = met.keys.size
  · subst hi
    rw [if_pos rfl, if_pos rfl]
    simp [node, Array.getElem?_eq_none hle, OrderedSet.ofList]
  · rw [if_neg hi, if_neg hi]
    rfl

/-- A move at the end of a row is an arrow. -/
theorem nodes_push_concat (row : List (Label × Nat)) (l : Label) (j : Nat) :
    (toAutomaton ⟨met, rows.push (row ++ [(l, j)])⟩ origin accepting).nodes =
      ((toAutomaton ⟨met, rows.push row⟩ origin accepting).connect rows.size l j).nodes := by
  refine Array.ext_getElem? fun i => ?_
  unfold Automaton.connect Automaton.modifyNode
  rw [Array.getElem?_modify, getElem?_nodes, getElem?_nodes]
  by_cases hi : rows.size = i
  · subst hi
    have hinsert : OrderedSet.ofList ((row ++ [(l, j)]).map fun m => (⟨m.1, m.2⟩ : Arrow)) =
        (OrderedSet.ofList (row.map fun m => (⟨m.1, m.2⟩ : Arrow))).insert ⟨l, j⟩ :=
      OrderedSet.ext fun r => by simp [or_comm]
    simp [node, Function.comp_def, ← hinsert]
  · rw [if_neg hi]
    refine congrArg (Option.map · met.keys[i]?) (funext fun k => ?_)
    simp [node, Array.getElem?_push, Ne.symm hi]

/-- A key gets its state. -/
theorem stateFor_built (origin : κ → StateSet) (hacc : accepts k = .ok (accepting k))
    (hle : e.rows.size ≤ e.met.keys.size) :
    stateFor origin accepts (built origin accepting e) k =
      .ok (built origin accepting ⟨e.met.add k, e.rows⟩, ((e.met.add k).find? k).getD 0) := by
  unfold stateFor
  by_cases hk : k ∈ e.met.keys
  · obtain ⟨i, hi⟩ := Array.mem_iff_getElem?.1 hk
    have hfind : e.met.find? k = some i := Numbering.find?_eq_some_iff.2 hi
    rw [show (built origin accepting e).met.find? k = some i from hfind, Numbering.add_of_mem hk, hfind]
    rfl
  · have hfind : (e.met.add k).find? k = some e.met.keys.size := by
      rw [Numbering.find?_eq_some_iff, Numbering.keys_add_of_not_mem hk, Array.getElem?_push_size]
    rw [show (built origin accepting e).met.find? k = none from Numbering.find?_eq_none_iff.2 hk, hfind]
    dsimp only
    rw [hacc, ok_bind, setAccepting_eq (Automaton.lt_size_addNode ..), ok_bind, Automaton.modifyNode_addNode, size_built]
    unfold built
    rw [nodes_add hk hle]
    rfl

/-- A move is followed. -/
theorem addMove_built {row : List (Label × Nat)} {m : Label × κ}
    (hacc : accepts m.2 = .ok (accepting m.2)) (hlt : rows.size < met.keys.size) :
    addMove origin accepts rows.size (built origin accepting ⟨met, rows.push row⟩) m =
      .ok (built origin accepting
        ⟨met.add m.2, rows.push (row ++ [(m.1, ((met.add m.2).find? m.2).getD 0)])⟩) := by
  have hle : (rows.push row).size ≤ met.keys.size := by
    rw [Array.size_push]
    exact hlt
  have hmem : m.2 ∈ (met.add m.2).keys := Numbering.mem_keys_add.2 (.inr rfl)
  obtain ⟨i, hi⟩ := Array.mem_iff_getElem?.1 hmem
  have hsource : rows.size < (met.add m.2).keys.size :=
    Nat.lt_of_lt_of_le hlt (size_le_meet met [m])
  have hdest : i < (met.add m.2).keys.size := (Array.getElem?_eq_some_iff.1 hi).1
  unfold addMove
  rw [stateFor_built origin hacc hle, ok_bind, Numbering.find?_eq_some_iff.2 hi]
  dsimp only [Option.getD_some]
  rw [addTransition_eq (by rwa [size_built]) (by rwa [size_built]), ok_bind]
  unfold built
  rw [nodes_push_concat]
  rfl

/-- A row is followed move by move. -/
theorem foldlM_addMove_built (origin : κ → StateSet) (hlt : rows.size < met.keys.size)
    (pre row : List (Label × κ)) (hacc : ∀ m ∈ row, accepts m.2 = .ok (accepting m.2)) :
    row.foldlM (addMove origin accepts rows.size)
        (built origin accepting ⟨meet met pre, rows.push (number (meet met pre) pre)⟩) =
      .ok (built origin accepting
        ⟨meet met (pre ++ row), rows.push (number (meet met (pre ++ row)) (pre ++ row))⟩) := by
  induction row generalizing pre with
  | nil =>
    rw [List.append_nil]
    rfl
  | cons m row ih =>
    have hlt' := Nat.lt_of_lt_of_le hlt (size_le_meet met pre)
    rw [List.foldlM_cons, addMove_built (hacc m List.mem_cons_self) hlt', ok_bind, ← meet_concat,
      ← number_concat, List.append_cons pre m row]
    exact ih (pre ++ [m]) fun m' hm' => hacc m' (List.mem_cons_of_mem m hm')

variable {ε' : Type} {stop : ε' → Stop ε} {P : κ → Prop}
  {moves : σ → κ → Except ε' (σ × List (Label × κ))}
  {guarded : σ → κ → Except (Stop ε) (σ × List (Label × κ))}

theorem node_built {i : Nat} (hk : e.met.keys[i]? = some k) :
    served (ε := ε) ((built origin accepting e).automaton.node i) = .ok (e.node origin accepting i k) := by
  have hn : (built origin accepting e).automaton.nodes[i]? = some (e.node origin accepting i k) := by
    rw [built, getElem?_nodes, hk]
    rfl
  unfold Automaton.node
  rw [hn]
  rfl

section Following

variable (hacc : ∀ k, P k → accepts k = .ok (accepting k))
  (hmoves : ∀ account k, P k → guarded account k = (moves account k).mapError stop)
  (hrow : ∀ account k account' row, P k → moves account k = .ok (account', row) → ∀ m ∈ row, P m.2)
include hacc hmoves hrow

/-- The automaton follows the exploration. -/
theorem advance_built (origin : κ → StateSet) (hkeys : ∀ k ∈ e.met.keys, P k) (fuel : Nat) (account : σ) :
    advance origin accepts guarded fuel e.rows.size account (built origin accepting e) =
      (Exploration.advance moves fuel account e).mapError stop >>= fun e =>
        .ok (built origin accepting e) := by
  induction fuel generalizing account e with
  | zero => rfl
  | succ fuel ih =>
    obtain ⟨met, rows⟩ := e
    rw [advance, Exploration.advance]
    cases hk : met.keys[rows.size]? with
    | none =>
      rw [show (built origin accepting ⟨met, rows⟩).met.keys[rows.size]? = none from hk]
      rfl
    | some k =>
      rw [show (built origin accepting ⟨met, rows⟩).met.keys[rows.size]? = some k from hk]
      have hlt : rows.size < met.keys.size := (Array.getElem?_eq_some_iff.1 hk).1
      have hPk := hkeys k (Array.mem_of_getElem? hk)
      have horigin : ((⟨met, rows⟩ : Exploration κ).node origin accepting rows.size k).origin =
          some (origin k) := rfl
      dsimp only
      rw [node_built hk, ok_bind, demand_eq horigin, ok_bind, hmoves account k hPk]
      cases hm : moves account k with
      | error err => rfl
      | ok r =>
        obtain ⟨account', row⟩ := r
        have hProw := hrow account k account' row hPk hm
        have hfold := foldlM_addMove_built origin hlt [] row
          fun m hm => hacc m.2 (hProw m hm)
        have hkeys' : ∀ k ∈ (meet met row).keys, P k := by
          intro k hk
          rcases mem_keys_meet.1 hk with hk | ⟨m, hm, rfl⟩
          · exact hkeys k hk
          · exact hProw m hm
        have hnext := ih (e := ⟨meet met row, rows.push (number (meet met row) row)⟩) hkeys' account'
        rw [Array.size_push] at hnext
        rw [← built_push_nil]
        show (row.foldlM (addMove origin accepts rows.size) _ >>= fun b =>
          advance origin accepts guarded fuel (rows.size + 1) account' b) = _
        exact (congrArg (· >>= _) hfold).trans hnext

/-- The automaton that is made on the way is the one of the exploration. -/
theorem explore_eq (origin : κ → StateSet) {first : κ} (hfirst : P first) (fuel : Nat) (account : σ) :
    explore origin accepts guarded fuel account first =
      (Exploration.explore moves fuel account first).mapError stop >>= fun e =>
        .ok (e.toAutomaton origin accepting) := by
  have hkeys : (start first).met.keys = #[first] :=
    Numbering.keys_add_of_not_mem (Array.not_mem_empty first)
  have hP : ∀ k ∈ (start first).met.keys, P k := fun k hk => by
    rw [hkeys, Array.mem_singleton] at hk
    exact hk ▸ hfirst
  have hstart : stateFor origin accepts {} first = .ok (built origin accepting (start first), 0) := by
    have hfind : (Numbering.empty.add first).find? first = some 0 := by
      rw [Numbering.find?_eq_some_iff]
      exact congrArg (·[0]?) hkeys
    have hnew := stateFor_built (e := ⟨Numbering.empty, #[]⟩) origin (hacc first hfirst)
      (Nat.le_refl 0)
    rwa [hfind] at hnew
  have hfollow := advance_built hacc hmoves hrow origin hP fuel account
  unfold explore
  rw [hstart]
  show (advance origin accepts guarded fuel 0 account (built origin accepting (start first)) >>=
    fun b => served (b.automaton.setInitial 0)) = _
  rw [show (0 : Nat) = (start first).rows.size from rfl, hfollow, Exploration.explore]
  cases he : Exploration.advance moves fuel account (start first) with
  | error err => rfl
  | ok e =>
    have hpos : 0 < (built origin accepting e).automaton.size := by
      rw [size_built]
      exact ((inRange_start first).advance he).pos
    exact setInitial_eq hpos

end Following

end Guarded

end PatternAutomata
