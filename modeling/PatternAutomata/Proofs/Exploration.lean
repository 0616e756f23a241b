import Mathlib.Logic.Function.Iterate
import Mathlib.Logic.Relation
import PatternAutomata.Automaton.Exploration
import PatternAutomata.Proofs.Determinism

/-!
# What an exploration numbers

An exploration of the graph `f` from `first` keeps the rows of the keys that are done, each with
the numbers of its targets (`Exploration.Holds`); doing a key keeps this (`Holds.doNext`).  With moves
that never fail it does key after key, and `N` steps do all of them when there cannot be more keys:

    advance moves fuel account e = .ok ((doNext f)^[fuel] e)                  (advance_eq_iterate)
    Explored f first ((doNext f)^[N] (start first))                             (explored_iterate)
    e.toAutomaton steps from i to j over c
      ↔ a label of the key numbered i admits c and leads to the key numbered j      (Explored.step)
-/

namespace PatternAutomata

open Relation StrictTotal

/-! ## Numbers once given -/

namespace Numbering

variable {κ : Type} [StrictTotal κ] {n : Numbering κ} {k x : κ} {i j : Nat}

theorem eq_of_getElem? (hi : n.keys[i]? = some k) (hj : n.keys[j]? = some k) : i = j :=
  Option.some.inj ((find?_eq_some_iff.2 hi).symm.trans (find?_eq_some_iff.2 hj))

theorem nodup_keys (n : Numbering κ) : n.keys.toList.Nodup := by
  rw [List.Nodup, List.pairwise_iff_getElem]
  intro i j hi hj hij e
  refine Nat.ne_of_lt hij (eq_of_getElem? (n := n) (k := n.keys.toList[i]) ?_ ?_)
  · simp
  · rw [e]
    simp

theorem add_of_mem (h : k ∈ n.keys) : n.add k = n := by
  have hindex : n.index[k]? ≠ none := fun e => find?_eq_none_iff.1 e h
  unfold add
  split
  exact dif_neg hindex

theorem keys_add (n : Numbering κ) (k : κ) :
    (n.add k).keys = n.keys ∨ (n.add k).keys = n.keys.push k := by
  by_cases h : k ∈ n.keys
  · exact .inl (keys_add_of_mem h)
  · exact .inr (keys_add_of_not_mem h)

theorem getElem?_add (h : n.keys[i]? = some x) (k : κ) : (n.add k).keys[i]? = some x := by
  rcases keys_add n k with e | e
  · rwa [e]
  · obtain ⟨hi, -⟩ := Array.getElem?_eq_some_iff.1 h
    rw [e, Array.getElem?_push_lt hi, ← h, Array.getElem?_eq_getElem hi]

theorem mem_keys_add : x ∈ (n.add k).keys ↔ x ∈ n.keys ∨ x = k := by
  by_cases h : k ∈ n.keys
  · rw [keys_add_of_mem h]
    constructor
    · exact .inl
    · rintro (hx | rfl)
      · exact hx
      · exact h
  · rw [keys_add_of_not_mem h, Array.mem_push]

end Numbering

namespace Exploration

variable {κ σ ε : Type} [StrictTotal κ] {f : κ → List (Label × κ)} {first : κ}

theorem getElem?_meet {met : Numbering κ} {i : Nat} {k : κ} (h : met.keys[i]? = some k)
    (row : List (Label × κ)) : (meet met row).keys[i]? = some k := by
  unfold meet
  induction row generalizing met with
  | nil => exact h
  | cons m row ih => exact ih (Numbering.getElem?_add h m.2)

theorem mem_keys_meet {met : Numbering κ} {row : List (Label × κ)} {k : κ} :
    k ∈ (meet met row).keys ↔ k ∈ met.keys ∨ ∃ m ∈ row, m.2 = k := by
  unfold meet
  induction row generalizing met with
  | nil => simp
  | cons m row ih =>
    rw [List.foldl_cons, ih, Numbering.mem_keys_add]
    simp [or_assoc, eq_comm]

theorem size_le_meet (met : Numbering κ) (row : List (Label × κ)) :
    met.keys.size ≤ (meet met row).keys.size := by
  unfold meet
  induction row generalizing met with
  | nil => exact Nat.le_refl _
  | cons m row ih =>
    refine Nat.le_trans ?_ (ih (met.add m.2))
    rcases Numbering.keys_add met m.2 with e | e <;> simp [e]

/-- Numbers already given stay when more keys are met. -/
theorem number_meet {met : Numbering κ} {row : List (Label × κ)} (h : ∀ m ∈ row, m.2 ∈ met.keys)
    (row' : List (Label × κ)) : number (meet met row') row = number met row := by
  unfold number
  refine List.map_congr_left fun m hm => ?_
  obtain ⟨i, hi⟩ := Array.mem_iff_getElem?.1 (h m hm)
  rw [Numbering.find?_eq_some_iff.2 hi, Numbering.find?_eq_some_iff.2 (getElem?_meet hi row')]

/-! ## The walk -/

/-- Whether a move leads from one key to another. -/
def Leads (f : κ → List (Label × κ)) (k k' : κ) : Prop := ∃ m ∈ f k, m.2 = k'

/-- An exploration with its next key done, if there is one. -/
def doNext (f : κ → List (Label × κ)) (e : Exploration κ) : Exploration κ :=
  match e.met.keys[e.rows.size]? with
  | none => e
  | some k => ⟨meet e.met (f k), e.rows.push (number (meet e.met (f k)) (f k))⟩

theorem doNext_of_some {e : Exploration κ} {k : κ} (hk : e.met.keys[e.rows.size]? = some k) :
    doNext f e = ⟨meet e.met (f k), e.rows.push (number (meet e.met (f k)) (f k))⟩ := by
  unfold doNext
  rw [hk]

theorem doNext_of_none {e : Exploration κ} (hk : e.met.keys[e.rows.size]? = none) :
    doNext f e = e := by
  unfold doNext
  rw [hk]

theorem doNext_of_done {e : Exploration κ} (h : e.rows.size = e.met.keys.size) :
    doNext f e = e := doNext_of_none (Array.getElem?_eq_none (Nat.le_of_eq h.symm))

/-- What an exploration of `f` keeps: the first keys are done, and all keys come from `first`. -/
structure Holds (f : κ → List (Label × κ)) (first : κ) (e : Exploration κ) : Prop where
  walked : ∃ n, (doNext f)^[n] (start first) = e
  starts : e.met.keys[0]? = some first
  rows_le : e.rows.size ≤ e.met.keys.size
  rows : ∀ i k, i < e.rows.size → e.met.keys[i]? = some k → e.rows[i]? = some (number e.met (f k))
  targets : ∀ i k, i < e.rows.size → e.met.keys[i]? = some k → ∀ m ∈ f k, m.2 ∈ e.met.keys
  reached : ∀ k ∈ e.met.keys, ReflTransGen (Leads f) first k

/-- When a key is done, a row below the end has its key from before, and the last row is the one of
this key. -/
theorem eq_or_eq_of_getElem?_meet {e : Exploration κ} {k : κ}
    (hk : e.met.keys[e.rows.size]? = some k) {row : List (Label × κ)} {i : Nat} {x : κ}
    (hi : i < e.rows.size + 1) (hx : (meet e.met row).keys[i]? = some x) :
    (i < e.rows.size ∧ e.met.keys[i]? = some x) ∨ (i = e.rows.size ∧ x = k) := by
  have hlt : e.rows.size < e.met.keys.size := (Array.getElem?_eq_some_iff.1 hk).1
  have hie : i < e.met.keys.size := by omega
  have he := Array.getElem?_eq_getElem hie
  have hx' : e.met.keys[i]? = some x := by rw [← hx, getElem?_meet he, he]
  rcases Nat.lt_succ_iff_lt_or_eq.1 hi with hi | rfl
  · exact .inl ⟨hi, hx'⟩
  · exact .inr ⟨rfl, Option.some.inj (hx'.symm.trans hk)⟩

theorem holds_start : Holds f first (start first) := by
  have e : (start first).met.keys = #[first] := Numbering.keys_add_of_not_mem (Array.not_mem_empty first)
  refine ⟨⟨0, rfl⟩, by rw [e]; rfl, Nat.zero_le _, fun i k h => ?_, fun i k h => ?_,
    fun k hk => ?_⟩
  · exact absurd h (Nat.not_lt_zero i)
  · exact absurd h (Nat.not_lt_zero i)
  · rw [e, Array.mem_singleton] at hk
    exact hk ▸ .refl

/-- Doing the next key. -/
theorem Holds.doNext {e : Exploration κ} (h : Holds f first e) {k : κ}
    (hk : e.met.keys[e.rows.size]? = some k) :
    Holds f first ⟨meet e.met (f k), e.rows.push (number (meet e.met (f k)) (f k))⟩ := by
  have hlt : e.rows.size < e.met.keys.size := (Array.getElem?_eq_some_iff.1 hk).1
  have hcases : ∀ i x, i < (e.rows.push (number (meet e.met (f k)) (f k))).size →
      (meet e.met (f k)).keys[i]? = some x →
      (i < e.rows.size ∧ e.met.keys[i]? = some x) ∨ (i = e.rows.size ∧ x = k) :=
    fun i x hi hx => eq_or_eq_of_getElem?_meet hk (by simpa using hi) hx
  refine ⟨?_, getElem?_meet h.starts _, ?_, fun i x hi hx => ?_, fun i x hi hx m hm => ?_,
    fun x hx => ?_⟩
  · obtain ⟨n, hn⟩ := h.walked
    exact ⟨n + 1, by rw [Function.iterate_succ_apply', hn, doNext_of_some hk]⟩
  · rw [Array.size_push]
    exact Nat.le_trans hlt (size_le_meet _ _)
  · rcases hcases i x hi hx with ⟨hi, hx⟩ | ⟨rfl, rfl⟩
    · rw [Array.getElem?_push_lt hi, ← Array.getElem?_eq_getElem hi, h.rows i x hi hx,
        number_meet (h.targets i x hi hx)]
    · rw [Array.getElem?_push_size]
  · rcases hcases i x hi hx with ⟨hi, hx⟩ | ⟨rfl, rfl⟩
    · exact mem_keys_meet.2 (.inl (h.targets i x hi hx m hm))
    · exact mem_keys_meet.2 (.inr ⟨m, hm, rfl⟩)
  · rcases mem_keys_meet.1 hx with hx | hx
    · exact h.reached x hx
    · exact (h.reached k (Array.mem_of_getElem? hk)).tail hx

variable {moves : σ → κ → Except ε (σ × List (Label × κ))}

section Advance

variable {fuel : Nat} {account account' : σ} {e : Exploration κ} {k : κ}

theorem advance_of_none (hk : e.met.keys[e.rows.size]? = none) :
    advance moves fuel account e = .ok e := by
  cases fuel with
  | zero => rfl
  | succ fuel =>
    obtain ⟨met, rows⟩ := e
    unfold advance
    rw [hk]

theorem advance_of_ok (hk : e.met.keys[e.rows.size]? = some k)
    (hm : moves account k = .ok (account', f k)) :
    advance moves (fuel + 1) account e = advance moves fuel account' (doNext f e) := by
  rw [doNext_of_some hk]
  obtain ⟨met, rows⟩ := e
  rw [advance, hk]
  dsimp only
  rw [hm]

theorem advance_of_error {err : ε} (hk : e.met.keys[e.rows.size]? = some k)
    (hm : moves account k = .error err) : advance moves (fuel + 1) account e = .error err := by
  obtain ⟨met, rows⟩ := e
  rw [advance, hk]
  dsimp only
  rw [hm]

end Advance

/-- An exploration whose moves never fail does key after key. -/
theorem advance_eq_iterate {e : Exploration κ} (h : Holds f first e) (fuel : Nat) (account : σ)
    (hm : ∀ account k, ReflTransGen (Leads f) first k →
      ∃ account', moves account k = .ok (account', f k)) :
    advance moves fuel account e = .ok ((doNext f)^[fuel] e) := by
  induction fuel generalizing account e with
  | zero => rfl
  | succ fuel ih =>
    rw [Function.iterate_succ_apply]
    cases hk : e.met.keys[e.rows.size]? with
    | none =>
      rw [advance_of_none hk, doNext_of_none hk, Function.iterate_fixed (doNext_of_none hk)]
    | some k =>
      obtain ⟨account', hrow⟩ := hm account k (h.reached k (Array.mem_of_getElem? hk))
      rw [advance_of_ok hk hrow]
      apply ih
      rw [doNext_of_some hk]
      exact h.doNext hk

/-- An exploration that comes to its end has asked for the moves of each key that it has done. -/
theorem advance_eq_ok {P : κ → Prop} {e e' : Exploration κ} {fuel : Nat} {account : σ}
    (hm : ∀ account k account' row, moves account k = .ok (account', row) → row = f k ∧ P k)
    (hP : ∀ i k, i < e.rows.size → e.met.keys[i]? = some k → P k)
    (he : advance moves fuel account e = .ok e') :
    e' = (doNext f)^[fuel] e ∧ ∀ i k, i < e'.rows.size → e'.met.keys[i]? = some k → P k := by
  induction fuel generalizing account e with
  | zero =>
    cases he
    exact ⟨rfl, hP⟩
  | succ fuel ih =>
    rw [Function.iterate_succ_apply]
    cases hk : e.met.keys[e.rows.size]? with
    | none =>
      rw [advance_of_none hk] at he
      cases he
      rw [doNext_of_none hk, Function.iterate_fixed (doNext_of_none hk)]
      exact ⟨rfl, hP⟩
    | some k =>
      cases hrow : moves account k with
      | error err =>
        rw [advance_of_error hk hrow] at he
        cases he
      | ok r =>
        obtain ⟨account', row⟩ := r
        obtain ⟨rfl, hPk⟩ := hm account k account' row hrow
        rw [advance_of_ok hk hrow] at he
        refine ih (fun i x hi hx => ?_) he
        rw [doNext_of_some hk] at hi hx
        rcases eq_or_eq_of_getElem?_meet hk (by simpa using hi) hx with ⟨hi, hx⟩ | ⟨-, rfl⟩
        · exact hP i x hi hx
        · exact hPk

/-- An exploration fails where a key has no moves. -/
theorem exists_of_advance_eq_error {e : Exploration κ} {fuel : Nat} {account : σ} {err : ε}
    (he : advance moves fuel account e = .error err) : ∃ account k, moves account k = .error err := by
  induction fuel generalizing account e with
  | zero => cases he
  | succ fuel ih =>
    obtain ⟨met, rows⟩ := e
    unfold advance at he
    split at he
    · cases he
    · next k _ =>
      split at he
      · next herr =>
        cases he
        exact ⟨account, k, herr⟩
      · exact ih he

/-- Moves that never fail and keep no account. -/
def unfailing (f : κ → List (Label × κ)) : Unit → κ → Except ε (Unit × List (Label × κ)) :=
  fun _ k => .ok ((), f k)

theorem explore_unfailing (fuel : Nat) :
    explore (unfailing (ε := ε) f) fuel () first = .ok ((doNext f)^[fuel] (start first)) :=
  advance_eq_iterate holds_start fuel () fun _ _ _ => ⟨(), rfl⟩

/-! ## The automaton of an exploration -/

/-- An exploration that has done every key. -/
structure Explored (f : κ → List (Label × κ)) (first : κ) (e : Exploration κ) : Prop
    extends Holds f first e where
  done : e.rows.size = e.met.keys.size

/-- An exploration that is done stays as it is. -/
theorem Explored.iterate_doNext {e : Exploration κ} (h : Explored f first e) :
    ∃ n, ∀ m, (doNext f)^[n + m] (start first) = e := by
  obtain ⟨n, hn⟩ := h.walked
  refine ⟨n, fun m => ?_⟩
  rw [Nat.add_comm, Function.iterate_add_apply, hn]
  exact Function.iterate_fixed (doNext_of_done h.done) m

/-- A graph has one exploration. -/
theorem Explored.unique {e e' : Exploration κ} (h : Explored f first e) (h' : Explored f first e') :
    e = e' := by
  obtain ⟨n, hn⟩ := h.iterate_doNext
  obtain ⟨n', hn'⟩ := h'.iterate_doNext
  rw [← hn n', Nat.add_comm, hn' n]

theorem holds_iterate (f : κ → List (Label × κ)) (first : κ) (n : Nat) :
    Holds f first ((doNext f)^[n] (start first)) := by
  induction n with
  | zero => exact holds_start
  | succ n ih =>
    rw [Function.iterate_succ_apply']
    cases hk : ((doNext f)^[n] (start first)).met.keys[((doNext f)^[n] (start first)).rows.size]? with
    | none => rwa [doNext_of_none hk]
    | some k =>
      rw [doNext_of_some hk]
      exact ih.doNext hk

/-- Each step does one key, as long as there is one. -/
theorem size_rows_iterate (f : κ → List (Label × κ)) (first : κ) (n : Nat) :
    ((doNext f)^[n] (start first)).rows.size = n ∨
      ((doNext f)^[n] (start first)).rows.size = ((doNext f)^[n] (start first)).met.keys.size := by
  induction n with
  | zero => exact .inl rfl
  | succ n ih =>
    rw [Function.iterate_succ_apply']
    rcases Nat.lt_or_eq_of_le (holds_iterate f first n).rows_le with hlt | hdone
    · rcases ih with hn | hdone
      · rw [doNext_of_some (Array.getElem?_eq_getElem hlt), Array.size_push]
        exact .inl (congrArg (· + 1) hn)
      · exact absurd hdone (Nat.ne_of_lt hlt)
    · rw [doNext_of_done hdone]
      exact .inr hdone

/-- As many steps as there can be keys do all of them. -/
theorem explored_iterate {N : Nat} (hN : ∀ e, Holds f first e → e.met.keys.size ≤ N) :
    Explored f first ((doNext f)^[N] (start first)) := by
  have hholds := holds_iterate f first N
  refine ⟨hholds, ?_⟩
  rcases size_rows_iterate f first N with hrows | hdone
  · exact Nat.le_antisymm hholds.rows_le (Nat.le_trans (hN _ hholds) (Nat.le_of_eq hrows.symm))
  · exact hdone

variable {e : Exploration κ} {origin : κ → StateSet} {accepting : κ → Bool} {i j : Nat} {k : κ}

theorem getElem?_nodes :
    (e.toAutomaton origin accepting).nodes[i]? =
      (e.met.keys[i]?).map fun k => e.node origin accepting i k := by
  simp [toAutomaton]

@[simp] theorem size_toAutomaton : (e.toAutomaton origin accepting).size = e.met.keys.size := by
  simp [toAutomaton, Automaton.size]

theorem lt_size_toAutomaton (hk : e.met.keys[i]? = some k) :
    i < (e.toAutomaton origin accepting).size := by
  rw [size_toAutomaton]
  exact (Array.getElem?_eq_some_iff.1 hk).1

theorem name_toAutomaton (hi : i < (e.toAutomaton origin accepting).size) :
    (e.toAutomaton origin accepting).name i = Automaton.defaultName i := by
  rw [size_toAutomaton] at hi
  unfold Automaton.name
  rw [getElem?_nodes, Array.getElem?_eq_getElem hi]
  rfl

theorem accepting_toAutomaton (hk : e.met.keys[i]? = some k) :
    (e.toAutomaton origin accepting).accepting i = accepting k := by
  unfold Automaton.accepting
  rw [getElem?_nodes, hk]
  rfl

theorem origin?_toAutomaton (hk : e.met.keys[i]? = some k) :
    (e.toAutomaton origin accepting).origin? i = some (origin k) := by
  unfold Automaton.origin?
  rw [getElem?_nodes, hk]
  rfl

/-! ## Numbers of keys -/

/-- The numbers in the rows are numbers of keys, and there is a first key. -/
structure InRange (e : Exploration κ) : Prop where
  pos : 0 < e.met.keys.size
  rows : ∀ row ∈ e.rows, ∀ m ∈ row, m.2 < e.met.keys.size

theorem inRange_start (first : κ) : (start first).InRange := by
  have hkeys : (start first).met.keys = #[first] :=
    Numbering.keys_add_of_not_mem (Array.not_mem_empty first)
  constructor
  · rw [hkeys]
    exact Nat.one_pos
  · intro row hrow
    exact absurd hrow (Array.not_mem_empty row)

theorem lt_of_mem_number {met : Numbering κ} (hpos : 0 < met.keys.size) {row : List (Label × κ)}
    {m : Label × Nat} (hm : m ∈ number met row) : m.2 < met.keys.size := by
  obtain ⟨x, -, rfl⟩ := List.mem_map.1 hm
  show (met.find? x.2).getD 0 < met.keys.size
  cases hx : met.find? x.2 with
  | none => exact hpos
  | some i => exact (Array.getElem?_eq_some_iff.1 (Numbering.find?_eq_some_iff.1 hx)).1

/-- Doing a key keeps the numbers in range, whatever its moves are. -/
theorem InRange.push (h : e.InRange) (row : List (Label × κ)) :
    InRange ⟨meet e.met row, e.rows.push (number (meet e.met row) row)⟩ := by
  have hle := size_le_meet e.met row
  have hpos := Nat.lt_of_lt_of_le h.pos hle
  refine ⟨hpos, ?_⟩
  intro r hr m hm
  rcases Array.mem_push.1 hr with hr | rfl
  · exact Nat.lt_of_lt_of_le (h.rows r hr m hm) hle
  · exact lt_of_mem_number hpos hm

theorem InRange.advance {moves : σ → κ → Except ε (σ × List (Label × κ))} {fuel : Nat} {account : σ}
    (h : e.InRange) (he : advance moves fuel account e = .ok e') : e'.InRange := by
  induction fuel generalizing account e with
  | zero =>
    cases he
    exact h
  | succ fuel ih =>
    obtain ⟨met, rows⟩ := e
    unfold Exploration.advance at he
    split at he
    · cases he
      exact h
    · split at he
      · cases he
      · next row _ => exact ih (h.push row) he

theorem InRange.wellFormed (h : e.InRange) (origin : κ → StateSet) (accepting : κ → Bool) :
    (e.toAutomaton origin accepting).WellFormed := by
  constructor
  · intro s r hr
    unfold Automaton.arrows at hr
    rw [getElem?_nodes] at hr
    rw [size_toAutomaton]
    cases hk : e.met.keys[s]? with
    | none =>
      rw [hk] at hr
      cases hr
    | some k =>
      rw [hk] at hr
      obtain ⟨m, hm, rfl⟩ := List.mem_map.1 (OrderedSet.mem_ofList.1 (OrderedSet.mem_toList.1 hr))
      cases hrow : e.rows[s]? with
      | none =>
        rw [hrow] at hm
        cases hm
      | some row =>
        rw [hrow] at hm
        exact h.rows row (Array.mem_of_getElem? hrow) m hm
  · rintro s ⟨⟩
    rw [size_toAutomaton]
    exact h.pos

/-! ## The automaton of a graph -/

namespace Explored

theorem arrows_eq (h : Explored f first e) (hk : e.met.keys[i]? = some k) :
    (e.toAutomaton origin accepting).arrows i =
      (OrderedSet.ofList ((number e.met (f k)).map fun m => (⟨m.1, m.2⟩ : Arrow))).toList := by
  have hi : i < e.rows.size := h.done ▸ (Array.getElem?_eq_some_iff.1 hk).1
  unfold Automaton.arrows
  rw [getElem?_nodes, hk]
  simp only [Option.map_some, node, h.rows i k hi hk, Option.getD_some]

theorem target_mem (h : Explored f first e) (hk : e.met.keys[i]? = some k) {m : Label × κ}
    (hm : m ∈ f k) : ∃ j : Nat, e.met.keys[j]? = some m.2 := by
  have hi : i < e.rows.size := h.done ▸ (Array.getElem?_eq_some_iff.1 hk).1
  exact Array.mem_iff_getElem?.1 (h.targets i k hi hk m hm)

theorem exists_key (h : Explored f first e) (hk : ReflTransGen (Leads f) first k) :
    ∃ i : Nat, e.met.keys[i]? = some k := by
  induction hk with
  | refl => exact ⟨0, h.starts⟩
  | tail _ hleads ih =>
    obtain ⟨i, hi⟩ := ih
    obtain ⟨m, hm, rfl⟩ := hleads
    exact h.target_mem hi hm

theorem mem_arrows (h : Explored f first e) (hk : e.met.keys[i]? = some k) {l : Label} :
    (⟨l, j⟩ : Arrow) ∈ (e.toAutomaton origin accepting).arrows i ↔
      ∃ k', e.met.keys[j]? = some k' ∧ (l, k') ∈ f k := by
  rw [h.arrows_eq hk, OrderedSet.mem_toList, OrderedSet.mem_ofList, number, List.map_map]
  simp only [List.mem_map, Function.comp_apply, Arrow.mk.injEq]
  constructor
  · rintro ⟨m, hm, rfl, rfl⟩
    obtain ⟨j, hj⟩ := h.target_mem hk hm
    rw [Numbering.find?_eq_some_iff.2 hj]
    exact ⟨m.2, hj, hm⟩
  · rintro ⟨k', hj, hm⟩
    refine ⟨_, hm, rfl, ?_⟩
    rw [Numbering.find?_eq_some_iff.2 hj]
    rfl

theorem inRange (h : Explored f first e) : e.InRange := by
  have hpos : 0 < e.met.keys.size := (Array.getElem?_eq_some_iff.1 h.starts).1
  refine ⟨hpos, fun row hrow m hm => ?_⟩
  obtain ⟨i, hi⟩ := Array.mem_iff_getElem?.1 hrow
  have hlt := (Array.getElem?_eq_some_iff.1 hi).1
  have hk := Array.getElem?_eq_getElem (Nat.lt_of_lt_of_le hlt h.rows_le)
  cases hi.symm.trans (h.rows i _ hlt hk)
  exact lt_of_mem_number hpos hm

theorem wellFormed (h : Explored f first e) : (e.toAutomaton origin accepting).WellFormed :=
  h.inRange.wellFormed origin accepting

theorem exclusive (h : Explored f first e)
    (hf : ∀ k, ReflTransGen (Leads f) first k → Label.Exclusive ((f k).map Prod.fst)) :
    (e.toAutomaton origin accepting).Exclusive := by
  intro i
  by_cases hi : i < e.met.keys.size
  · have hk := Array.getElem?_eq_getElem hi
    have hx := hf _ (h.reached _ (Array.mem_of_getElem? hk))
    have hx' : Label.Exclusive
        (((number e.met (f e.met.keys[i])).map fun m => (⟨m.1, m.2⟩ : Arrow)).map Arrow.label) := by
      rwa [number, List.map_map, List.map_map]
    unfold Automaton.ExclusiveAt
    rw [h.arrows_eq hk]
    exact hx'.ofList
  · exact Automaton.exclusiveAt_of_le (by simpa using hi)

theorem step (h : Explored f first e)
    (hf : ∀ k, ReflTransGen (Leads f) first k → Label.Exclusive ((f k).map Prod.fst))
    (hk : e.met.keys[i]? = some k) {c : Char} :
    (e.toAutomaton origin accepting).step i c = some j ↔
      ∃ m ∈ f k, m.1.admits c = true ∧ e.met.keys[j]? = some m.2 := by
  rw [Automaton.step_eq_some_iff (h.exclusive hf i)]
  simp only [h.mem_arrows hk]
  constructor
  · rintro ⟨l, ⟨k', hj, hm⟩, hc⟩
    exact ⟨_, hm, hc, hj⟩
  · rintro ⟨⟨l, k'⟩, hm, hc, hj⟩
    exact ⟨l, ⟨k', hj, hm⟩, hc⟩

end Explored

end Exploration

end PatternAutomata
