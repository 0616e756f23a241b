import Mathlib.Data.List.Induction
import Mathlib.Data.List.Intervals
import PatternAutomata.Automaton.Sweep
import PatternAutomata.Proofs.Exploration

/-!
# Explorations are breadth-first walks

An exploration numbers keys when it meets them.  On the numbers alone it is the walk with a queue: the
first of the queue is done, and those of its successors that have not been found join the queue at its
end.  So the states are found in the order of their numbers,

    breadthFirst succ e.met.keys.size [0] [0] = List.range e.met.keys.size     (Explored.breadthFirst_eq)

where `succ` lists the targets of a row in the order of the row.  In an automaton whose labels are
exclusive these are the destinations in the order of the characters (`orderedSuccessors`), however its
arrows are stored.
-/

namespace PatternAutomata

open Relation StrictTotal

/-- The states that a breadth-first walk has found when it has done at most `fuel` more: the first of
the queue is done next, and those of its successors that are new join the queue, each once and in
their order. -/
def breadthFirst (succ : State → List State) : Nat → List State → List State → List State
  | 0, _, found => found
  | _ + 1, [], found => found
  | fuel + 1, s :: queue, found =>
    let fresh := ((succ s).filter fun t => decide (t ∉ found)).eraseDups
    breadthFirst succ fuel (queue ++ fresh) (found ++ fresh)

theorem eraseDups_concat (l : List State) (t : State) :
    (l ++ [t]).eraseDups = if t ∈ l then l.eraseDups else l.eraseDups ++ [t] := by
  rw [List.eraseDups_append]
  by_cases h : t ∈ l
  · simp [h, List.removeAll]
  · simp [h, List.removeAll, List.eraseDups_cons]

/-- The destinations of the labels out of a state, by ascending first character. -/
def Automaton.orderedSuccessors (a : Automaton) (s : State) : List State :=
  (sort (a.spans (OrderedSet.ofList [s]))).map Span.target

theorem Automaton.spans_singleton (a : Automaton) (s : State) :
    a.spans (OrderedSet.ofList [s]) =
      (a.arrows s).filterMap fun r => r.label.bounds?.map fun b => ⟨b.1, b.2, r.dest⟩ :=
  List.append_nil _

namespace Exploration

variable {κ : Type} [StrictTotal κ] {f : κ → List (Label × κ)} {first : κ} {e : Exploration κ}

/-! ## The keys that a row adds -/

theorem meet_concat (met : Numbering κ) (row : List (Label × κ)) (m : Label × κ) :
    meet met (row ++ [m]) = (meet met row).add m.2 := by simp [meet]

theorem number_concat (met : Numbering κ) (row : List (Label × κ)) (m : Label × κ) :
    number (meet met (row ++ [m])) (row ++ [m]) =
      number (meet met row) row ++ [(m.1, ((meet met (row ++ [m])).find? m.2).getD 0)] := by
  have hrow : ∀ x ∈ row, x.2 ∈ (meet met row).keys := fun x hx => mem_keys_meet.2 (.inr ⟨x, hx, rfl⟩)
  have hstay := number_meet hrow [m]
  rw [show meet (meet met row) [m] = meet met (row ++ [m]) from (meet_concat met row m).symm] at hstay
  rw [← hstay]
  simp [number]

/-- The keys that a row adds get the next numbers in the order in which the row has them. -/
theorem eraseDups_number (met : Numbering κ) (row : List (Label × κ)) :
    (((number (meet met row) row).map Prod.snd).filter
        fun t => decide (t ∉ List.range met.keys.size)).eraseDups =
      List.Ico met.keys.size (meet met row).keys.size := by
  induction row using List.reverseRecOn with
  | nil => simp [number, meet]
  | append_singleton row m ih =>
    have hle := size_le_meet met row
    rw [number_concat, List.map_append, List.filter_append]
    simp only [List.map_cons, List.map_nil]
    by_cases hm : m.2 ∈ (meet met row).keys
    · have hkeys : (meet met (row ++ [m])).keys = (meet met row).keys := by
        rw [meet_concat, Numbering.keys_add_of_mem hm]
      obtain ⟨j, hj⟩ := Array.mem_iff_getElem?.1 hm
      have hlt := (Array.getElem?_eq_some_iff.1 hj).1
      have hfind : (meet met (row ++ [m])).find? m.2 = some j :=
        Numbering.find?_eq_some_iff.2 (by rw [hkeys, hj])
      rw [hfind, Option.getD_some, hkeys, ← ih]
      by_cases hold : j < met.keys.size
      · rw [List.filter_cons_of_neg (by simpa using hold), List.filter_nil, List.append_nil]
      · -- The number stands in the row already, as the key was met there.
        have hmem : j ∈ ((number (meet met row) row).map Prod.snd).filter
            fun t => decide (t ∉ List.range met.keys.size) := by
          rw [← List.mem_eraseDups, ih, List.Ico.mem]
          exact ⟨Nat.le_of_not_lt hold, hlt⟩
        rw [List.filter_cons_of_pos (by simpa using hold), List.filter_nil, eraseDups_concat,
          if_pos hmem]
    · have hkeys : (meet met (row ++ [m])).keys = (meet met row).keys.push m.2 := by
        rw [meet_concat, Numbering.keys_add_of_not_mem hm]
      have hfind : (meet met (row ++ [m])).find? m.2 = some (meet met row).keys.size :=
        Numbering.find?_eq_some_iff.2 (by rw [hkeys, Array.getElem?_push_size])
      have hnew : (meet met row).keys.size ∉ ((number (meet met row) row).map Prod.snd).filter
          fun t => decide (t ∉ List.range met.keys.size) := by
        rw [← List.mem_eraseDups, ih, List.Ico.mem]
        exact fun h => Nat.lt_irrefl _ h.2
      rw [hfind, Option.getD_some, hkeys, Array.size_push,
        List.filter_cons_of_pos (by simpa using hle), List.filter_nil, eraseDups_concat,
        if_neg hnew, ih, List.Ico.succ_top hle]

/-! ## The walk on the numbers -/

/-- The targets of the row of a key by their numbers. -/
def rowTargets (e : Exploration κ) (i : State) : List State := (e.rows[i]?.getD []).map Prod.snd

theorem getElem?_rows_doNext {i : Nat} {row : List (Label × Nat)} (h : e.rows[i]? = some row) :
    (doNext f e).rows[i]? = some row := by
  unfold doNext
  split
  · exact h
  · obtain ⟨hi, -⟩ := Array.getElem?_eq_some_iff.1 h
    rw [Array.getElem?_push_lt hi, ← h, Array.getElem?_eq_getElem hi]

theorem getElem?_rows_iterate {i n : Nat} {row : List (Label × Nat)} (h : e.rows[i]? = some row) :
    ((doNext f)^[n] e).rows[i]? = some row := by
  induction n generalizing e with
  | zero => exact h
  | succ n ih => exact ih (getElem?_rows_doNext h)

/-- The keys that have been met and not been done are the queue of the walk. -/
theorem Holds.breadthFirst_eq {succ : State → List State} (h : Holds f first e) (fuel : Nat)
    (hsucc : succ = rowTargets ((Exploration.doNext f)^[fuel] e)) :
    breadthFirst succ fuel (List.Ico e.rows.size e.met.keys.size) (List.range e.met.keys.size) =
      List.range ((Exploration.doNext f)^[fuel] e).met.keys.size := by
  induction fuel generalizing e with
  | zero => rfl
  | succ fuel ih =>
    cases hk : e.met.keys[e.rows.size]? with
    | none =>
      rw [List.Ico.eq_nil_of_le (Array.getElem?_eq_none_iff.1 hk),
        Function.iterate_fixed (doNext_of_none hk)]
      rfl
    | some k =>
      have hlt := (Array.getElem?_eq_some_iff.1 hk).1
      have hsize := size_le_meet e.met (f k)
      rw [Function.iterate_succ_apply, doNext_of_some hk] at hsucc ⊢
      have hrow : succ e.rows.size = (number (meet e.met (f k)) (f k)).map Prod.snd := by
        rw [hsucc, rowTargets, getElem?_rows_iterate (Array.getElem?_push_size), Option.getD_some]
      rw [← ih (h.doNext hk) hsucc, List.Ico.eq_cons hlt, breadthFirst]
      dsimp only
      rw [hrow, eraseDups_number, Array.size_push, List.Ico.append_consecutive hlt hsize,
        ← List.Ico.zero_bot, List.Ico.append_consecutive (Nat.zero_le _) hsize, List.Ico.zero_bot]

theorem size_keys_le_iterate (e : Exploration κ) (n : Nat) :
    e.met.keys.size ≤ ((doNext f)^[n] e).met.keys.size := by
  induction n generalizing e with
  | zero => exact Nat.le_refl _
  | succ n ih =>
    refine Nat.le_trans ?_ (ih (doNext f e))
    unfold doNext
    split
    · exact Nat.le_refl _
    · exact size_le_meet _ _

/-- As many steps as there are keys do all of them. -/
theorem Explored.iterate_size (h : Explored f first e) :
    (doNext f)^[e.met.keys.size] (start first) = e := by
  have hholds := holds_iterate f first e.met.keys.size
  refine Explored.unique ⟨hholds, ?_⟩ h
  obtain ⟨n, hn⟩ := h.iterate_doNext
  have hle := size_keys_le_iterate (f := f) ((doNext f)^[e.met.keys.size] (start first)) n
  rw [← Function.iterate_add_apply, hn] at hle
  rcases size_rows_iterate f first e.met.keys.size with hrows | hdone
  · exact Nat.le_antisymm hholds.rows_le (hle.trans (Nat.le_of_eq hrows.symm))
  · exact hdone

/-- The walk finds the states in the order of their numbers. -/
theorem Explored.breadthFirst_eq (h : Explored f first e) :
    breadthFirst e.rowTargets e.met.keys.size [0] [0] = List.range e.met.keys.size := by
  have hkeys : (start first).met.keys.size = 1 := by
    rw [start, Numbering.keys_add_of_not_mem (Array.not_mem_empty first)]
    rfl
  have hwalk := (holds_start : Holds f first (start first)).breadthFirst_eq e.met.keys.size
    (congrArg rowTargets h.iterate_size.symm)
  rwa [hkeys, h.iterate_size] at hwalk

/-! ## The order of the characters -/

variable {origin : κ → StateSet} {accepting : κ → Bool}

/-- A row made from separate spans, in the order of the characters. -/
theorem Explored.sort_spans (h : Explored f first e) {spans : List (Span κ)}
    (hspans : Span.Separate spans) {i : Nat} {k : κ} (hk : e.met.keys[i]? = some k)
    (hf : f k = spans.map fun m => (m.label, m.target))
    (hexclusive : (e.toAutomaton origin accepting).ExclusiveAt i) :
    sort ((e.toAutomaton origin accepting).spans (OrderedSet.ofList [i])) =
      spans.map fun m => m.map fun k => (e.met.find? k).getD 0 := by
  rw [Automaton.spans_singleton]
  have hsort := hexclusive.separate_sort
    (g := fun r => r.label.bounds?.map fun b => (⟨b.1, b.2, r.dest⟩ : Span State)) fun r m hm => by
      obtain ⟨⟨_, _⟩, hb, rfl⟩ := Option.map_eq_some_iff.1 hm
      exact hb
  have hmap := hspans.map (fun m => m.map fun k => (e.met.find? k).getD 0) (fun _ => rfl) fun _ => rfl
  refine OrderedSet.eq_of_mem_iff hsort.pairwise_lt hmap.pairwise_lt fun m => ?_
  rw [mem_sort, List.mem_filterMap, List.mem_map]
  constructor
  · rintro ⟨⟨l, j⟩, hr, hm⟩
    obtain ⟨k', hj, hrow⟩ := (h.mem_arrows hk).1 hr
    rw [hf] at hrow
    obtain ⟨t, ht, hlabel⟩ := List.mem_map.1 hrow
    cases hlabel
    obtain ⟨⟨_, _⟩, hb, rfl⟩ := Option.map_eq_some_iff.1 hm
    cases (Label.bounds?_spanning t.lo t.hi).symm.trans hb
    refine ⟨t, ht, ?_⟩
    rw [Span.map, Numbering.find?_eq_some_iff.2 hj]
    rfl
  · rintro ⟨t, ht, rfl⟩
    have hrow : (t.label, t.target) ∈ f k := hf ▸ List.mem_map_of_mem ht
    obtain ⟨j, hj⟩ := h.target_mem hk hrow
    refine ⟨⟨t.label, j⟩, (h.mem_arrows hk).2 ⟨_, hj, hrow⟩, ?_⟩
    rw [Span.map, Numbering.find?_eq_some_iff.2 hj, Span.label, Label.bounds?_spanning]
    rfl

/-- When the rows are made from separate spans they stand in the order of the characters, whatever the
order of the arrows is. -/
theorem Explored.orderedSuccessors_eq (h : Explored f first e) {spans : κ → List (Span κ)}
    (hspans : ∀ k, Span.Separate (spans k)) (hf : ∀ k, f k = (spans k).map fun m => (m.label, m.target)) :
    (e.toAutomaton origin accepting).orderedSuccessors = e.rowTargets := by
  have hexclusive : (e.toAutomaton origin accepting).Exclusive := h.exclusive fun k _ => by
    rw [hf, List.map_map]
    exact (hspans k).exclusive
  funext i
  unfold Automaton.orderedSuccessors rowTargets
  by_cases hi : i < e.met.keys.size
  · have hk := Array.getElem?_eq_getElem hi
    rw [h.sort_spans (hspans _) hk (hf _) (hexclusive i), h.rows i _ (h.done ▸ hi) hk, hf]
    simp [number, Span.map]
  · have harrows : (e.toAutomaton origin accepting).arrows i = [] :=
      Automaton.arrows_of_le (by simpa using hi)
    have hrows : e.rows[i]? = none :=
      Array.getElem?_eq_none (Nat.le_of_not_lt fun hlt => hi (h.done ▸ hlt))
    rw [Automaton.spans_singleton, harrows, hrows]
    rfl

end Exploration

end PatternAutomata
