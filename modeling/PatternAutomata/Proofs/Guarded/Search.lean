import PatternAutomata.Proofs.Guarded.Access
import PatternAutomata.Proofs.Reach

/-!
# Guarded searches

A guarded search looks up the mark of every state that it meets, and asks for the successors of every
state that it looks at.  When all of them are among the `n` states of the search, every lookup succeeds
(`searchFrom_eq`).  The marks keep their number all the while, so the states to do stay below it.

    a.WellFormed → (∀ s ∈ seeds, s < a.size) → closure a seeds = .ok (a.closure seeds)      (closure_eq)
    a.WellFormed → live a = .ok a.live                                                          (live_eq)
-/

namespace PatternAutomata.Guarded

variable {ε : Type} {n : Nat}

/-! ## Searching -/

/-- Meets a state. -/
def meet : Search → State → Except (Stop ε) Search
  | ⟨met, todo⟩, s => do
    let marked ← fetch met s
    if marked then .ok ⟨met, todo⟩
    else do
      let met ← store met s true
      .ok ⟨met, s :: todo⟩

/-- Looks at `fuel` states at most: each one meets its successors. -/
def run (succ : State → Except (Stop ε) (List State)) : Nat → Search → Except (Stop ε) Search
  | 0, x => .ok x
  | fuel + 1, ⟨met, todo⟩ =>
    match todo with
    | [] => .ok ⟨met, []⟩
    | s :: rest => do
      let next ← succ s
      let x ← next.foldlM meet ⟨met, rest⟩
      run succ fuel x

/-- The search among `n` states from some seeds. -/
def searchFrom (n : Nat) (succ : State → Except (Stop ε) (List State)) (seeds : List State) :
    Except (Stop ε) Search := do
  let x ← seeds.foldlM meet (Search.start n)
  run succ n x

/-- Marks for `n` states, and states to do among them. -/
structure Within (n : Nat) (x : Search) : Prop where
  size : x.met.size = n
  todo : ∀ s ∈ x.todo, s < n

theorem Within.meet {x : Search} (h : Within n x) (s : State) : Within n (x.meet s) := by
  refine ⟨(x.size_meet s).trans h.size, fun t ht => ?_⟩
  rcases Search.mem_todo_meet.1 ht with ht | ⟨rfl, hs, -⟩
  · exact h.todo t ht
  · exact h.size ▸ hs

theorem meet_eq {x : Search} {s : State} (h : s < x.met.size) : meet (ε := ε) x s = .ok (x.meet s) := by
  obtain ⟨met, todo⟩ := x
  have hs : met[s]? = some met[s] := Array.getElem?_eq_getElem h
  rw [meet, fetch_eq hs, ok_bind, Search.meet_eq]
  cases hm : met[s] with
  | true => simp [hs, hm]
  | false => simp [hs, hm, store_eq h]

theorem foldlM_meet_eq {x : Search} {l : List State} (h : Within n x) (hl : ∀ s ∈ l, s < n) :
    l.foldlM meet x = (.ok (l.foldl Search.meet x) : Except (Stop ε) Search) :=
  foldlM_eq_ok h fun s hs _ hy => ⟨meet_eq (hy.size ▸ hl s hs), hy.meet s⟩

theorem Within.foldl_meet {x : Search} (h : Within n x) (l : List State) :
    Within n (l.foldl Search.meet x) := by
  induction l generalizing x with
  | nil => exact h
  | cons s l ih => exact ih (h.meet s)

section Succ

variable {succ : State → List State} {guarded : State → Except (Stop ε) (List State)}
  (hsucc : ∀ s, s < n → guarded s = .ok (succ s) ∧ ∀ t ∈ succ s, t < n)
include hsucc

theorem run_eq {x : Search} (h : Within n x) (fuel : Nat) :
    run guarded fuel x = .ok (Search.run succ fuel x) := by
  induction fuel generalizing x with
  | zero => rfl
  | succ fuel ih =>
    obtain ⟨met, todo⟩ := x
    match todo with
    | [] => rfl
    | s :: rest =>
      obtain ⟨hs, hnext⟩ := hsucc s (h.todo s List.mem_cons_self)
      have hrest : Within n ⟨met, rest⟩ := ⟨h.size, fun t ht => h.todo t (List.mem_cons_of_mem s ht)⟩
      rw [run, hs, ok_bind, foldlM_meet_eq hrest hnext, ok_bind, ih (hrest.foldl_meet (succ s))]
      rfl

theorem searchFrom_eq {seeds : List State} (hseeds : ∀ s ∈ seeds, s < n) :
    searchFrom n guarded seeds = .ok (PatternAutomata.searchFrom n succ seeds) := by
  have hstart : Within n (Search.start n) := ⟨Array.size_replicate, fun s hs => by cases hs⟩
  unfold searchFrom
  rw [foldlM_meet_eq hstart hseeds, ok_bind, run_eq hsucc (hstart.foldl_meet seeds)]
  rfl

end Succ

/-! ## Searches in an automaton -/

/-- The destinations of all arrows out of a state. -/
def successors (a : Automaton) (s : State) : Except (Stop ε) (List State) := do
  let rs ← arrows a s
  .ok (rs.map Arrow.dest)

/-- The destinations of the empty moves out of a state. -/
def epsilonSuccessors (a : Automaton) (s : State) : Except (Stop ε) (List State) := do
  let rs ← arrows a s
  .ok ((rs.filter fun r => r.label.isEpsilon).map Arrow.dest)

/-- The given states and all that empty moves reach from them. -/
def closure (a : Automaton) (seeds : List State) : Except (Stop ε) StateSet := do
  let x ← searchFrom a.size (epsilonSuccessors a) seeds
  .ok (statesBelow a.size x.has)

/-- For each of `n` states, the sources of the edges to it. -/
def sourceTable (n : Nat) (edges : List Edge) : Except (Stop ε) (Array (List State)) :=
  edges.foldlM (fun table e => do
    let sources ← fetch table e.dest
    store table e.dest (e.source :: sources)) (Array.replicate n [])

/-- The states on some way from the initial state to an accepting one. -/
def live (a : Automaton) : Except (Stop ε) StateSet := do
  let fore ← searchFrom a.size (successors a) a.initial.toList
  let sources ← sourceTable a.size a.edges
  let back ← searchFrom a.size (fetch sources) a.acceptStates
  .ok ((statesBelow a.size fore.has).filter back.has)

variable {a : Automaton}

theorem successors_eq (hw : a.WellFormed) {s : State} (hs : s < a.size) :
    successors (ε := ε) a s = .ok (a.successors s) ∧ ∀ t ∈ a.successors s, t < a.size := by
  constructor
  · unfold successors
    rw [arrows_eq hs]
    rfl
  · intro t ht
    obtain ⟨r, hr, rfl⟩ := List.mem_map.1 ht
    exact hw.dest_lt s r hr

theorem epsilonSuccessors_eq (hw : a.WellFormed) {s : State} (hs : s < a.size) :
    epsilonSuccessors (ε := ε) a s = .ok (a.epsilonSuccessors s) ∧
      ∀ t ∈ a.epsilonSuccessors s, t < a.size := by
  constructor
  · unfold epsilonSuccessors
    rw [arrows_eq hs]
    rfl
  · intro t ht
    obtain ⟨r, hr, rfl⟩ := List.mem_map.1 ht
    exact hw.dest_lt s r (List.mem_filter.1 hr).1

theorem closure_eq (hw : a.WellFormed) {seeds : List State} (hseeds : ∀ s ∈ seeds, s < a.size) :
    closure (ε := ε) a seeds = .ok (a.closure seeds) := by
  unfold closure
  rw [searchFrom_eq (fun _ hs => epsilonSuccessors_eq hw hs) hseeds]
  rfl

theorem sourceTable_eq {edges : List Edge} (h : ∀ e ∈ edges, e.dest < n) :
    sourceTable (ε := ε) n edges = .ok (Automaton.sourceTable n edges) := by
  refine foldlM_eq_ok (P := fun table => table.size = n) Array.size_replicate fun e he table ht => ?_
  have hlt : e.dest < table.size := ht ▸ h e he
  rw [fetch_eq (Array.getElem?_eq_getElem hlt), ok_bind, store_eq hlt, Array.size_modify]
  refine ⟨congrArg Except.ok (Array.ext_getElem? fun i => ?_), ht⟩
  rw [Array.getElem?_setIfInBounds, Array.getElem?_modify]
  by_cases hi : e.dest = i
  · subst hi
    rw [if_pos rfl, if_pos hlt, if_pos rfl, Array.getElem?_eq_getElem hlt]
    rfl
  · rw [if_neg hi, if_neg hi]

theorem size_sourceTable (n : Nat) (edges : List Edge) :
    (Automaton.sourceTable n edges).size = n :=
  List.foldlRecOn edges _ (motive := fun table : Array (List State) => table.size = n) Array.size_replicate
    fun _ ht _ _ => (Array.size_modify ..).trans ht

theorem live_eq (hw : a.WellFormed) : live (ε := ε) a = .ok a.live := by
  have hinitial : ∀ s ∈ a.initial.toList, s < a.size := fun s hs =>
    hw.initial_lt s (Option.mem_toList.1 hs)
  have haccept : ∀ s ∈ a.acceptStates, s < a.size := fun s hs =>
    List.mem_range.1 (List.mem_filter.1 hs).1
  have hedges : ∀ e ∈ a.edges, e.dest < a.size := fun e he =>
    hw.dest_lt e.source _ (Automaton.mem_edges.1 he)
  have hsources : ∀ t, t < a.size →
      fetch (ε := ε) (Automaton.sourceTable a.size a.edges) t =
          .ok ((Automaton.sourceTable a.size a.edges)[t]?.getD []) ∧
        ∀ s ∈ (Automaton.sourceTable a.size a.edges)[t]?.getD [], s < a.size := by
    intro t ht
    have hlt : t < (Automaton.sourceTable a.size a.edges).size := size_sourceTable _ _ ▸ ht
    constructor
    · rw [fetch_eq (Array.getElem?_eq_getElem hlt), Array.getElem?_eq_getElem hlt]
      rfl
    · intro s hs
      exact Automaton.lt_size_of_moves ((Automaton.mem_sources t ht s).1 hs)
  unfold live
  rw [searchFrom_eq (fun _ hs => successors_eq hw hs) hinitial, ok_bind, sourceTable_eq hedges,
    ok_bind, searchFrom_eq hsources haccept]
  rfl

end PatternAutomata.Guarded
