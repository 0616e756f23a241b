import PatternAutomata.Proofs.Closure
import PatternAutomata.Proofs.Subsets

/-!
# The subset construction with a queue

The construction takes the number of a set from the front of a queue, follows the spans out of the set,
and puts each set that it meets for the first time at the end of the queue.  It goes on as long as a
number waits.  Nothing but the sets themselves bounds it:

    a.WellFormed → a.initial = some s → the queue runs empty, each state was taken from it once, and
      a.determinize.size ≤ 2 ^ a.size - 1                                          (queue_runs_empty)

The invariant is that the numbers that were taken and those that wait are, in this order, all numbers
given so far (`Queued`), so that a walk with a queue does the keys in the order of their numbers.
-/

namespace PatternAutomata

open Relation StrictTotal

/-! ## Merging numbered spans -/

namespace Span

variable {α β : Type} [DecidableEq α] [DecidableEq β]

theorem continuedBy_map_of_injOn {f : α → β} {S : Set α} (hf : S.InjOn f) {s t : Span α}
    (hs : s.target ∈ S) (ht : t.target ∈ S) : (s.map f).continuedBy (t.map f) = s.continuedBy t := by
  rw [Bool.eq_iff_iff, continuedBy_iff, continuedBy_iff]
  exact and_congr_left fun _ => hf.eq_iff hs ht

/-- Targets that get different numbers merge as they do without numbers. -/
theorem merge_map_of_injOn {f : α → β} {S : Set α} (hf : S.InjOn f) {l : List (Span α)}
    (hl : ∀ s ∈ l, s.target ∈ S) : merge (l.map (map f)) = (merge l).map (map f) := by
  cases l with
  | nil => rfl
  | cons p l =>
    show mergeFrom (p.map f) (l.map (map f)) = (mergeFrom p l).map (map f)
    induction l generalizing p with
    | nil => rfl
    | cons t l ih =>
      obtain ⟨hp, ht, hl⟩ : p.target ∈ S ∧ t.target ∈ S ∧ ∀ s ∈ l, s.target ∈ S := by simpa using hl
      rw [List.map_cons]
      unfold mergeFrom
      rw [continuedBy_map_of_injOn hf hp ht]
      by_cases hcont : p.continuedBy t = true
      · rw [if_pos hcont, if_pos hcont]
        exact ih ⟨p.lo, t.hi, p.target⟩ (List.forall_mem_cons.2 ⟨hp, hl⟩)
      · rw [if_neg hcont, if_neg hcont, ih t (List.forall_mem_cons.2 ⟨ht, hl⟩)]
        rfl

end Span

namespace Exploration

variable {κ : Type} [StrictTotal κ] [DecidableEq κ]

/-- The moves along some spans. -/
def spanMoves {κ : Type} (spans : List (Span κ)) : List (Label × κ) :=
  spans.map fun m => (m.label, m.target)

/-- The graph of which the moves are merged spans. -/
def graph (spans : κ → List (Span κ)) (k : κ) : List (Label × κ) := spanMoves (Span.merge (spans k))

/-- Merging leaves out keys that come again right away. -/
theorem meet_merge (met : Numbering κ) (l : List (Span κ)) :
    meet met (spanMoves (Span.merge l)) = meet met (spanMoves l) := by
  cases l with
  | nil => rfl
  | cons p l =>
    show meet met (spanMoves (Span.mergeFrom p l)) = meet met (spanMoves (p :: l))
    induction l generalizing met p with
    | nil => rfl
    | cons t l ih =>
      unfold Span.mergeFrom
      by_cases hcont : p.continuedBy t = true
      · have htarget := (Span.continuedBy_iff.1 hcont).1
        have hagain : (met.add p.target).add t.target = met.add p.target :=
          Numbering.add_of_mem (Numbering.mem_keys_add.2 (.inr htarget.symm))
        rw [if_pos hcont, ih met ⟨p.lo, t.hi, p.target⟩]
        show meet (met.add p.target) (spanMoves l) =
          meet ((met.add p.target).add t.target) (spanMoves l)
        rw [hagain]
      · rw [if_neg hcont]
        exact ih (met.add p.target) t

end Exploration

/-! ## The loop -/

/-- A walk through a graph: the keys met so far with their numbers, the numbers of those that wait, and
those that are done with their labels. -/
structure Walk (κ : Type) [StrictTotal κ] where
  met : Numbering κ
  queue : List State
  done : List (State × List (Label × State))

namespace Walk

open Exploration

variable {κ : Type} [StrictTotal κ]

/-- The first key waits. -/
def start (first : κ) : Walk κ := ⟨Numbering.empty.add first, [0], []⟩

/-- The number of a key.  A key without a number gets the next one and waits. -/
def look (w : Walk κ) (k : κ) : Walk κ × State :=
  match w.met.find? k with
  | some q => (w, q)
  | none => (⟨w.met.add k, w.queue ++ [w.met.keys.size], w.done⟩, w.met.keys.size)

/-- Looks at the targets of spans, one after the other. -/
def follow (w : Walk κ) : List (Span κ) → Walk κ × List (Span State)
  | [] => (w, [])
  | m :: ms =>
    let found := w.look m.target
    let rest := found.1.follow ms
    (rest.1, ⟨m.lo, m.hi, found.2⟩ :: rest.2)

/-- Does the key with the number `i`, which has left the queue: follows its spans, and joins those that
touch. -/
def visit (w : Walk κ) (i : State) (spans : List (Span κ)) : Walk κ :=
  let found := w.follow spans
  let row := (Span.merge found.2).map fun m => (m.label, m.target)
  { found.1 with done := found.1.done ++ [(i, row)] }

/-- How a walk ends that goes on as long as a number waits. -/
inductive Ends (spans : κ → List (Span κ)) : Walk κ → Walk κ → Prop
  | done {met : Numbering κ} {done : List (State × List (Label × State))} :
      Ends spans ⟨met, [], done⟩ ⟨met, [], done⟩
  | visit {met : Numbering κ} {i : State} {queue : List State}
      {done : List (State × List (Label × State))} {k : κ} {z : Walk κ} :
      met.keys[i]? = some k → Ends spans (visit ⟨met, queue, done⟩ i (spans k)) z →
        Ends spans ⟨met, i :: queue, done⟩ z

/-! ## One look after the other -/

variable {w : Walk κ} {k : κ} {p : List State}

theorem look_of_some {q : State} (h : w.met.find? k = some q) : w.look k = (w, q) := by
  unfold look
  rw [h]

theorem look_of_none (h : w.met.find? k = none) :
    w.look k = (⟨w.met.add k, w.queue ++ [w.met.keys.size], w.done⟩, w.met.keys.size) := by
  unfold look
  rw [h]

/-- Some numbers and those that wait are, in this order, all numbers given so far. -/
def Waits (p : List State) (w : Walk κ) : Prop := p ++ w.queue = List.range w.met.keys.size

/-- A look gives the key its number, and leaves what is done alone. -/
theorem look_spec (h : Waits p w) (k : κ) :
    (w.look k).1.met = w.met.add k ∧ (w.look k).1.met.keys[(w.look k).2]? = some k ∧
      (w.look k).1.done = w.done ∧ Waits p (w.look k).1 := by
  by_cases hk : k ∈ w.met.keys
  · obtain ⟨q, hq⟩ := Array.mem_iff_getElem?.1 hk
    rw [look_of_some (Numbering.find?_eq_some_iff.2 hq)]
    exact ⟨(Numbering.add_of_mem hk).symm, hq, rfl, h⟩
  · have hkeys := Numbering.keys_add_of_not_mem hk
    rw [look_of_none (Numbering.find?_eq_none_iff.2 hk)]
    refine ⟨rfl, ?_, rfl, ?_⟩
    · show (w.met.add k).keys[w.met.keys.size]? = some k
      rw [hkeys, Array.getElem?_push_size]
    · show p ++ (w.queue ++ [w.met.keys.size]) = List.range (w.met.add k).keys.size
      rw [hkeys, Array.size_push, List.range_succ, ← List.append_assoc, h]

/-- The number of a key that is met. -/
def numberOf (met : Numbering κ) (k : κ) : State := (met.find? k).getD 0

theorem numberOf_eq {met : Numbering κ} {i : State} (h : met.keys[i]? = some k) : numberOf met k = i := by
  unfold numberOf
  rw [Numbering.find?_eq_some_iff.2 h]
  rfl

theorem injOn_numberOf (met : Numbering κ) : {k | k ∈ met.keys}.InjOn (numberOf met) := by
  intro k hk k' hk' heq
  obtain ⟨i, hi⟩ := Array.mem_iff_getElem?.1 hk
  obtain ⟨j, hj⟩ := Array.mem_iff_getElem?.1 hk'
  rw [numberOf_eq hi, numberOf_eq hj] at heq
  rw [heq, hj] at hi
  exact (Option.some.inj hi).symm

/-- The targets of spans get their numbers in turn. -/
theorem follow_spec (h : Waits p w) (spans : List (Span κ)) :
    (w.follow spans).1.met = meet w.met (spanMoves spans) ∧
      (w.follow spans).2 = spans.map (Span.map (numberOf (meet w.met (spanMoves spans)))) ∧
      (w.follow spans).1.done = w.done ∧ Waits p (w.follow spans).1 := by
  induction spans generalizing w with
  | nil => exact ⟨rfl, rfl, rfl, h⟩
  | cons m ms ih =>
    obtain ⟨hmet, hnumber, hdone, hwaits⟩ := look_spec h m.target
    obtain ⟨hmet', hspans, hdone', hwaits'⟩ := ih hwaits
    have hmeet : meet (w.look m.target).1.met (spanMoves ms) = meet w.met (spanMoves (m :: ms)) := by
      rw [hmet]
      rfl
    rw [hmeet] at hmet' hspans
    refine ⟨hmet', ?_, hdone'.trans hdone, hwaits'⟩
    have hhead : numberOf (meet w.met (spanMoves (m :: ms))) m.target = (w.look m.target).2 :=
      numberOf_eq (hmeet ▸ getElem?_meet hnumber _)
    show _ :: ((w.look m.target).1.follow ms).2 = _
    rw [hspans, List.map_cons, Span.map, hhead]

/-! ## A walk is an exploration -/

/-- The keys that were met, with the rows of those that are done. -/
def exploration (w : Walk κ) : Exploration κ := ⟨w.met, (w.done.map Prod.snd).toArray⟩

/-- What a walk keeps: it explores the graph, and the numbers were taken in their order. -/
structure Queued (f : κ → List (Label × κ)) (first : κ) (w : Walk κ) : Prop where
  holds : Holds f first w.exploration
  waits : Waits (w.done.map Prod.fst) w

variable {f : κ → List (Label × κ)} {first : κ}

theorem queued_start : Queued f first (start first) := by
  refine ⟨holds_start, ?_⟩
  have hkeys : (start first).met.keys = #[first] :=
    Numbering.keys_add_of_not_mem (Array.not_mem_empty first)
  unfold Waits
  rw [hkeys]
  rfl

theorem Queued.length_done_add (h : Queued f first w) :
    w.done.length + w.queue.length = w.met.keys.size := by
  simpa using congrArg List.length h.waits

/-- The number at the front of the queue is the next one to do, and it is the number of a key. -/
theorem Queued.front {i : State} {queue : List State} {met : Numbering κ}
    {done : List (State × List (Label × State))} (h : Queued f first ⟨met, i :: queue, done⟩) :
    i = done.length ∧ ∃ k, met.keys[i]? = some k := by
  have hget : (List.range met.keys.size)[done.length]? = some i := by
    rw [← h.waits, List.getElem?_append_right (by simp)]
    simp
  obtain ⟨hlt, hi⟩ := List.getElem?_eq_some_iff.1 hget
  rw [List.getElem_range] at hi
  rw [List.length_range] at hlt
  subst hi
  exact ⟨rfl, _, Array.getElem?_eq_getElem hlt⟩

/-- With an empty queue all keys are done, each once and in the order of their numbers. -/
theorem Queued.explored (h : Queued f first w) (hqueue : w.queue = []) :
    Explored f first w.exploration ∧ w.done.map Prod.fst = List.range w.met.keys.size := by
  have hlength := h.length_done_add
  rw [hqueue] at hlength
  refine ⟨⟨h.holds, by simpa [exploration] using hlength⟩, ?_⟩
  rw [← h.waits, hqueue, List.append_nil]

/-! ## The loop ends -/

variable [DecidableEq κ] {spans : κ → List (Span κ)}

/-- A visit meets the keys of a row, and keeps the row with their numbers. -/
theorem visit_spec (h : Waits p w) (i : State) (k : κ) :
    (w.visit i (spans k)).met = meet w.met (graph spans k) ∧
      (w.visit i (spans k)).done =
        w.done ++ [(i, number (meet w.met (graph spans k)) (graph spans k))] ∧
      Waits p (w.visit i (spans k)) := by
  obtain ⟨hmet, hnumbered, hdone, hwaits⟩ := follow_spec h (spans k)
  have hmeet : meet w.met (graph spans k) = meet w.met (spanMoves (spans k)) := meet_merge _ _
  rw [← hmeet] at hmet hnumbered
  have hmem : ∀ m ∈ spans k, m.target ∈ (meet w.met (graph spans k)).keys := fun m hm => by
    rw [hmeet]
    exact mem_keys_meet.2 (.inr ⟨_, List.mem_map_of_mem hm, rfl⟩)
  have hmerge := Span.merge_map_of_injOn (injOn_numberOf (meet w.met (graph spans k))) hmem
  have hrow : (Span.merge (w.follow (spans k)).2).map (fun m => (m.label, m.target)) =
      number (meet w.met (graph spans k)) (graph spans k) := by
    rw [hnumbered, hmerge, number, graph, spanMoves, List.map_map, List.map_map]
    rfl
  refine ⟨hmet, ?_, hwaits⟩
  unfold visit
  dsimp only
  rw [hdone, hrow]

/-- A visit of the number at the front keeps this, and one more key is done. -/
theorem Queued.visit {i : State} {queue : List State} {met : Numbering κ}
    {done : List (State × List (Label × State))} (h : Queued (graph spans) first ⟨met, i :: queue, done⟩)
    (hk : met.keys[i]? = some k) :
    Queued (graph spans) first (Walk.visit ⟨met, queue, done⟩ i (spans k)) ∧
      (Walk.visit ⟨met, queue, done⟩ i (spans k)).done.length = done.length + 1 := by
  have hwaits : Waits (done.map Prod.fst ++ [i]) ⟨met, queue, done⟩ := by
    have hwaits := h.waits
    unfold Waits at hwaits ⊢
    rw [← hwaits, List.append_assoc]
    rfl
  obtain ⟨hmet, hdone, hwaits⟩ := visit_spec hwaits i k
  have hrows : met.keys[(Walk.mk met (i :: queue) done).exploration.rows.size]? = some k := by
    rw [← hk, h.front.1]
    simp [exploration]
  have hnext := h.holds.doNext hrows
  refine ⟨⟨?_, ?_⟩, ?_⟩
  · unfold exploration
    rw [hmet, hdone]
    simpa [exploration] using hnext
  · rw [hdone, List.map_append]
    exact hwaits
  · rw [hdone, List.length_append]
    rfl

/-- A walk ends when there cannot be more than so many keys. -/
theorem Queued.exists_ends (h : Queued (graph spans) first w) {N : Nat}
    (hN : ∀ e, Holds (graph spans) first e → e.met.keys.size ≤ N) :
    ∃ z, Ends spans w z ∧ Queued (graph spans) first z ∧ z.queue = [] := by
  -- Each visit does one more of the keys, and there are no more than `N`.
  induction hleft : N - w.done.length generalizing w with
  | zero =>
    obtain ⟨met, queue, done⟩ := w
    have hle : met.keys.size ≤ N := hN _ h.holds
    have hlength : done.length + queue.length = met.keys.size := h.length_done_add
    have hqueue : queue = [] := List.eq_nil_of_length_eq_zero (by dsimp only at hleft; omega)
    subst hqueue
    exact ⟨_, .done, h, rfl⟩
  | succ n ih =>
    obtain ⟨met, queue, done⟩ := w
    match queue with
    | [] => exact ⟨_, .done, h, rfl⟩
    | i :: queue =>
      obtain ⟨-, k, hk⟩ := h.front
      obtain ⟨hvisit, hlength⟩ := h.visit hk
      obtain ⟨z, hz, hqueued, hempty⟩ := ih hvisit (by dsimp only at hleft; omega)
      exact ⟨z, .visit hk hz, hqueued, hempty⟩

end Walk

/-! ## The sets -/

namespace Automaton

variable {a : Automaton} {s : State}

/-- The spans out of a set, leaving out those that lead to an empty closure. -/
def followedMoves (a : Automaton) (set : StateSet) : List (Span StateSet) :=
  (a.closedMoves set).filter fun m => !m.target.isEmpty

/-- No closure is empty. -/
theorem followedMoves_eq (hw : a.WellFormed) (set : StateSet) : a.followedMoves set = a.closedMoves set := by
  refine List.filter_eq_self.2 fun m hm => ?_
  have hle := (separate_closedMoves a set).lo_le_hi m hm
  obtain ⟨hne, htarget⟩ := exists_mem_closedMoves.1
    ⟨m, hm, Span.covers_iff.2 ⟨Nat.le_refl _, hle⟩, rfl⟩
  obtain ⟨t, ht⟩ := (exists_mem_sweepStep_iff hw).2 hne
  rw [← htarget] at ht
  rw [Bool.not_eq_true', ← Bool.not_eq_true, OrderedSet.isEmpty_iff]
  exact fun hempty => hempty t ht

theorem graph_followedMoves (hw : a.WellFormed) :
    Exploration.graph a.followedMoves = a.subsetMoves := by
  funext set
  rw [subsetMoves_eq, Exploration.graph, followedMoves_eq hw]
  rfl

/-- All sets that are met have members, and the empty one is not among them. -/
theorem size_keys_lt (hw : a.WellFormed) (hs : a.initial = some s) {e : Exploration StateSet}
    (h : Exploration.Holds a.subsetMoves (a.closure [s]) e) : e.met.keys.size < 2 ^ a.size := by
  have hempty : (OrderedSet.empty : StateSet) ∉ e.met.keys.toList := by
    intro hmem
    obtain ⟨t, ht⟩ := (closedSet_of_reached hw hs (h.reached _ (Array.mem_toList_iff.1 hmem))).nonempty
    exact OrderedSet.not_mem_empty ht
  have hlength := length_le_two_pow (n := a.size) (e.met.nodup_keys.cons hempty) fun S hS t ht => by
    rcases List.mem_cons.1 hS with rfl | hS
    · exact absurd ht OrderedSet.not_mem_empty
    · exact lt_of_reached (h.reached S (Array.mem_toList_iff.1 hS)) t ht
  rw [List.length_cons, Array.length_toList] at hlength
  omega

/-- Whatever the labels and the empty moves of an automaton are, the queue of its subset construction
runs empty.  What was explored then is the result, of which each state was taken from the queue once. -/
theorem queue_runs_empty (hw : a.WellFormed) (hs : a.initial = some s) :
    ∃ z, Walk.Ends a.followedMoves (Walk.start (a.closure [s])) z ∧ z.queue = [] ∧
      a.determinize = a.ofSubsets z.exploration ∧ z.done.map Prod.fst = a.determinize.states ∧
      a.determinize.size ≤ 2 ^ a.size - 1 := by
  have hgraph := graph_followedMoves hw
  have hstart : Walk.Queued (Exploration.graph a.followedMoves) (a.closure [s])
      (Walk.start (a.closure [s])) := Walk.queued_start
  obtain ⟨z, hends, hqueued, hqueue⟩ :=
    hstart.exists_ends (N := a.subsetCount) (hgraph ▸ size_keys_le)
  rw [hgraph] at hqueued
  obtain ⟨hexplored, htaken⟩ := hqueued.explored hqueue
  obtain ⟨e, he, hd⟩ := explored_determinize hs
  have heq : e = z.exploration := he.unique hexplored
  have hsize : a.determinize.size = z.met.keys.size := by
    rw [hd, heq]
    exact Exploration.size_toAutomaton
  have hlt : z.met.keys.size < 2 ^ a.size := size_keys_lt hw hs hqueued.holds
  refine ⟨z, hends, hqueue, heq ▸ hd, ?_, ?_⟩
  · rw [htaken, states, hsize]
  · omega

theorem queue_runs_empty_emptyCycle :
    emptyCycle.WellFormed ∧ emptyCycle.initial = some 0 ∧
      ∃ z, Walk.Ends emptyCycle.followedMoves (Walk.start (emptyCycle.closure [0])) z ∧
        z.queue = [] ∧ z.done.map Prod.fst = [0, 1] ∧ 2 ≤ 2 ^ emptyCycle.size - 1 := by
  have hw : emptyCycle.WellFormed := by decide
  have hsize : emptyCycle.determinize.size = 2 := by decide +kernel
  obtain ⟨z, hends, hqueue, -, htaken, hbound⟩ := queue_runs_empty hw rfl
  rw [hsize] at hbound
  rw [states, hsize] at htaken
  exact ⟨hw, rfl, z, hends, hqueue, htaken, hbound⟩

end Automaton

end PatternAutomata
