import Mathlib.Logic.Relation
import PatternAutomata.Automaton.Reach

/-!
# What a search marks

A search keeps four facts (`Search.Holds`): what is marked is reached, what is to do is marked, a
marked state that is not to do has all its successors marked, and seeds are marked.
Each look takes one state off the list and puts back only states that it marks, so unmarked states
and states to do together go down by one a look, and `n` looks are enough:

    t ∈ reach n succ seeds ↔ ∃ s ∈ seeds, s < n ∧ a path of steps below n leads from s to t   (mem_reach)
    t ∈ a.closure seeds ↔ t < a.size ∧ empty moves lead from some s ∈ seeds to t         (mem_closure_iff)
    t ∈ a.reachable ↔ t < a.size ∧ arrows lead from the initial state to t             (mem_reachable_iff)
    s ∈ a.productive ↔ an accepting state is reached from s                                (mem_productive)
-/

namespace PatternAutomata

open Relation

/-! ## Marks -/

namespace Search

theorem has_iff {x : Search} {s : State} : x.has s = true ↔ x.met[s]? = some true := by
  unfold has
  cases h : x.met[s]? <;> simp

theorem meet_eq (x : Search) (s : State) :
    x.meet s = if x.met[s]? = some false then ⟨x.met.setIfInBounds s true, s :: x.todo⟩ else x := rfl

@[simp] theorem size_meet (x : Search) (s : State) : (x.meet s).met.size = x.met.size := by
  rw [meet_eq]
  split <;> simp

theorem has_meet {x : Search} {s t : State} :
    (x.meet s).has t = true ↔ x.has t = true ∨ t = s ∧ s < x.met.size := by
  rw [has_iff, has_iff, meet_eq]
  split
  · next h =>
    obtain ⟨hs, -⟩ := Array.getElem?_eq_some_iff.1 h
    rw [Array.getElem?_setIfInBounds]
    by_cases e : s = t
    · subst e
      simp [hs]
    · simp [e, Ne.symm e]
  · next h =>
    constructor
    · exact .inl
    · rintro (h' | ⟨rfl, hs⟩)
      · exact h'
      · rw [Array.getElem?_eq_getElem hs] at h ⊢
        simpa using h

/-- Only what a meeting marks is put in front of the states to do. -/
theorem mem_todo_meet {x : Search} {s t : State} :
    t ∈ (x.meet s).todo ↔ t ∈ x.todo ∨ t = s ∧ s < x.met.size ∧ x.has s = false := by
  rw [meet_eq]
  split
  · next h =>
    obtain ⟨hs, e⟩ := Array.getElem?_eq_some_iff.1 h
    simp [has, hs, e, or_comm]
  · next h =>
    constructor
    · exact .inl
    · rintro (h' | ⟨rfl, hs, hn⟩)
      · exact h'
      · rw [has, Array.getElem?_eq_getElem hs] at hn
        rw [Array.getElem?_eq_getElem hs] at h
        exact absurd (congrArg some hn) h

/-- Unmarked states and states to do, together. -/
def work (x : Search) : Nat := x.met.count false + x.todo.length

theorem work_meet (x : Search) (s : State) : (x.meet s).work = x.work := by
  rw [meet_eq]
  split
  · next h =>
    obtain ⟨hs, e⟩ := Array.getElem?_eq_some_iff.1 h
    have hpos : 0 < x.met.count false := Array.count_pos_iff.2 (e ▸ Array.getElem_mem hs)
    unfold work
    rw [Array.setIfInBounds, dif_pos hs, Array.count_set hs, e]
    simp only [BEq.rfl, if_true, List.length_cons]
    have : (true == false) = false := rfl
    simp only [this, Bool.false_eq_true, if_false]
    omega
  · rfl

/-! ## Meeting a list of states -/

@[simp] theorem size_foldl_meet (l : List State) (x : Search) :
    (l.foldl meet x).met.size = x.met.size := by
  induction l generalizing x with
  | nil => rfl
  | cons s l ih => rw [List.foldl_cons, ih, size_meet]

theorem has_foldl_meet {l : List State} {x : Search} {t : State} :
    (l.foldl meet x).has t = true ↔ x.has t = true ∨ t ∈ l ∧ t < x.met.size := by
  induction l generalizing x with
  | nil => simp
  | cons s l ih =>
    rw [List.foldl_cons, ih, has_meet, size_meet, List.mem_cons]
    constructor
    · rintro ((h | ⟨rfl, h⟩) | ⟨h, h'⟩)
      · exact .inl h
      · exact .inr ⟨.inl rfl, h⟩
      · exact .inr ⟨.inr h, h'⟩
    · rintro (h | ⟨rfl | h, h'⟩)
      · exact .inl (.inl h)
      · exact .inl (.inr ⟨rfl, h'⟩)
      · exact .inr ⟨h, h'⟩

theorem mem_todo_foldl_meet {l : List State} {x : Search} {t : State} :
    t ∈ (l.foldl meet x).todo ↔
      t ∈ x.todo ∨ (l.foldl meet x).has t = true ∧ x.has t = false := by
  induction l generalizing x with
  | nil => cases h : x.has t <;> simp [h]
  | cons s l ih =>
    rw [List.foldl_cons, ih, mem_todo_meet]
    have hm := @has_meet x s t
    have hf : (l.foldl meet (x.meet s)).has t = true ↔ _ := has_foldl_meet
    constructor
    · rintro ((h | ⟨rfl, hs, hn⟩) | ⟨h, hn⟩)
      · exact .inl h
      · exact .inr ⟨hf.2 (.inl (hm.2 (.inr ⟨rfl, hs⟩))), hn⟩
      · refine .inr ⟨h, ?_⟩
        rw [Bool.eq_false_iff] at hn ⊢
        exact fun e => hn (hm.2 (.inl e))
    · rintro (h | ⟨h, hn⟩)
      · exact .inl (.inl h)
      · cases h' : (x.meet s).has t with
        | false => exact .inr ⟨h, rfl⟩
        | true =>
          rcases hm.1 h' with e | ⟨rfl, hs⟩
          · rw [e] at hn
            cases hn
          · exact .inl (.inr ⟨rfl, hs, hn⟩)

theorem work_foldl_meet (l : List State) (x : Search) : (l.foldl meet x).work = x.work := by
  induction l generalizing x with
  | nil => rfl
  | cons s l ih => rw [List.foldl_cons, ih, work_meet]

/-! ## The walk -/

/-- A step of `succ` to a state below `n`. -/
def Step (n : Nat) (succ : State → List State) (s t : State) : Prop := t ∈ succ s ∧ t < n

/-- Whether steps lead from a seed below `n` to a state. -/
def Reached (n : Nat) (succ : State → List State) (seeds : List State) (t : State) : Prop :=
  ∃ s ∈ seeds, s < n ∧ ReflTransGen (Step n succ) s t

/-- What the walk from some seeds keeps from look to look. -/
structure Holds (n : Nat) (succ : State → List State) (seeds : List State) (x : Search) : Prop where
  size : x.met.size = n
  reached : ∀ s, x.has s = true → Reached n succ seeds s
  marked : ∀ s ∈ x.todo, x.has s = true
  followed : ∀ s, x.has s = true → s ∉ x.todo → ∀ t, Step n succ s t → x.has t = true
  seeded : ∀ s ∈ seeds, s < n → x.has s = true

variable {n : Nat} {succ : State → List State} {seeds : List State}

@[simp] theorem has_start (n : Nat) (s : State) : (start n).has s = false := by
  by_cases h : s < n <;> simp [start, has, h]

theorem holds_seeds : Holds n succ seeds (seeds.foldl meet (start n)) where
  size := by simp [start]
  reached s h := by
    rcases has_foldl_meet.1 h with h | ⟨hs, hn⟩
    · simp at h
    · exact ⟨s, hs, by simpa [start] using hn, .refl⟩
  marked s h := by
    rcases mem_todo_foldl_meet.1 h with h | h
    · simp [start] at h
    · exact h.1
  followed s h hs := by
    exact absurd (mem_todo_foldl_meet.2 (.inr ⟨h, has_start n s⟩)) hs
  seeded s hs hn := has_foldl_meet.2 (.inr ⟨hs, by simpa [start] using hn⟩)

/-- A look at the first state to do. -/
theorem Holds.look {x : Search} {s : State} {rest : List State} (h : Holds n succ seeds x)
    (hx : x.todo = s :: rest) : Holds n succ seeds ((succ s).foldl meet ⟨x.met, rest⟩) := by
  have hs : x.has s = true := h.marked s (hx ▸ List.mem_cons_self)
  have hhas : ∀ t, Search.has ⟨x.met, rest⟩ t = x.has t := fun _ => rfl
  refine ⟨by simpa using h.size, fun t ht => ?_, fun t ht => ?_, fun t ht hn u hu => ?_,
    fun t ht hn => ?_⟩
  · rcases has_foldl_meet.1 ht with ht | ⟨ht, hn⟩
    · exact h.reached t ht
    · obtain ⟨r, hr, hrn, hp⟩ := h.reached s hs
      exact ⟨r, hr, hrn, hp.tail ⟨ht, h.size ▸ hn⟩⟩
  · rcases mem_todo_foldl_meet.1 ht with ht | ht
    · exact has_foldl_meet.2 (.inl (h.marked t (hx ▸ List.mem_cons_of_mem _ ht)))
    · exact ht.1
  · rw [mem_todo_foldl_meet, not_or, not_and, Bool.not_eq_false, hhas] at hn
    by_cases e : t = s
    · subst e
      exact has_foldl_meet.2 (.inr ⟨hu.1, h.size.symm ▸ hu.2⟩)
    · refine has_foldl_meet.2 (.inl (h.followed t (hn.2 ht) ?_ u hu))
      rw [hx, List.mem_cons, not_or]
      exact ⟨e, hn.1⟩
  · exact has_foldl_meet.2 (.inl (h.seeded t ht hn))

/-- With as many looks as there is work, nothing is left to do. -/
theorem Holds.run {fuel : Nat} {x : Search} (h : Holds n succ seeds x) (hf : x.work ≤ fuel) :
    Holds n succ seeds (x.run succ fuel) ∧ (x.run succ fuel).todo = [] := by
  induction fuel generalizing x with
  | zero =>
    refine ⟨h, List.eq_nil_of_length_eq_zero ?_⟩
    unfold work at hf
    rw [Search.run]
    omega
  | succ fuel ih =>
    obtain ⟨met, todo⟩ := x
    cases todo with
    | nil => exact ⟨h, rfl⟩
    | cons s rest =>
      refine ih (h.look rfl) ?_
      rw [work_foldl_meet]
      simp only [work, List.length_cons] at hf ⊢
      omega

/-- At the beginning there is as much work as there are states. -/
theorem work_seeds (n : Nat) (seeds : List State) : (seeds.foldl meet (start n)).work = n := by
  rw [work_foldl_meet]
  simp [work, start]

theorem has_searchFrom {t : State} :
    (searchFrom n succ seeds).has t = true ↔ Reached n succ seeds t := by
  have hstart : Holds n succ seeds _ := holds_seeds
  obtain ⟨h, hd⟩ := hstart.run (Nat.le_of_eq (work_seeds n seeds))
  refine ⟨h.reached t, ?_⟩
  rintro ⟨s, hs, hn, hp⟩
  induction hp with
  | refl => exact h.seeded s hs hn
  | tail _ hst ih => exact h.followed _ ih (by rw [hd]; exact List.not_mem_nil) _ hst

theorem Reached.lt {t : State} (h : Reached n succ seeds t) : t < n := by
  obtain ⟨s, -, hn, hp⟩ := h
  cases hp with
  | refl => exact hn
  | tail _ h => exact h.2

/-- When only states below `n` have steps, the way to a state below `n` passes no others. -/
theorem reached_iff {R : State → State → Prop} (hsucc : ∀ s t, t ∈ succ s ↔ R s t)
    (hlt : ∀ s t, R s t → s < n) {t : State} :
    Reached n succ seeds t ↔ t < n ∧ ∃ s ∈ seeds, ReflTransGen R s t := by
  constructor
  · intro h
    obtain ⟨s, hs, -, hp⟩ := id h
    exact ⟨h.lt, s, hs, ReflTransGen.mono (fun u v huv => (hsucc u v).1 huv.1) _ _ hp⟩
  · rintro ⟨ht, s, hs, hp⟩
    refine ⟨s, hs, ?_⟩
    clear hs
    induction hp using ReflTransGen.head_induction_on with
    | refl => exact ⟨ht, .refl⟩
    | head huv _ ih => exact ⟨hlt _ _ huv, .head ⟨(hsucc _ _).2 huv, ih.1⟩ ih.2⟩

end Search

theorem mem_reach {n : Nat} {succ : State → List State} {seeds : List State} {t : State} :
    t ∈ reach n succ seeds ↔ Search.Reached n succ seeds t := by
  rw [reach, mem_statesBelow, Search.has_searchFrom]
  exact and_iff_right_of_imp Search.Reached.lt

namespace Automaton

variable {a : Automaton}

/-! ## Moves -/

/-- Whether an arrow of any label leads from one state to another. -/
def Moves (a : Automaton) (s t : State) : Prop := ∃ l, (⟨l, t⟩ : Arrow) ∈ a.arrows s

/-- Whether an empty move leads from one state to another. -/
def EmptyMove (a : Automaton) (s t : State) : Prop := (⟨.epsilon, t⟩ : Arrow) ∈ a.arrows s

theorem mem_successors {s t : State} : t ∈ a.successors s ↔ a.Moves s t := by
  unfold successors Moves
  rw [List.mem_map]
  constructor
  · rintro ⟨⟨l, _⟩, h, rfl⟩
    exact ⟨l, h⟩
  · rintro ⟨l, h⟩
    exact ⟨_, h, rfl⟩

theorem mem_epsilonSuccessors {s t : State} : t ∈ a.epsilonSuccessors s ↔ a.EmptyMove s t := by
  unfold epsilonSuccessors EmptyMove
  rw [List.mem_map]
  constructor
  · rintro ⟨⟨l, _⟩, h, rfl⟩
    obtain ⟨h, hl⟩ := List.mem_filter.1 h
    cases Label.isEpsilon_iff.1 hl
    exact h
  · intro h
    exact ⟨_, List.mem_filter.2 ⟨h, rfl⟩, rfl⟩

theorem EmptyMove.moves {s t : State} (h : a.EmptyMove s t) : a.Moves s t := ⟨_, h⟩

theorem lt_size_of_moves {s t : State} (h : a.Moves s t) : s < a.size := by
  obtain ⟨l, h⟩ := h
  exact lt_size_of_mem_arrows h

theorem WellFormed.lt_of_moves (hw : a.WellFormed) {s t : State} (h : a.Moves s t) : t < a.size := by
  obtain ⟨l, h⟩ := h
  exact hw.dest_lt s _ h

/-! ## The three instances -/

theorem mem_closure_iff {seeds : List State} {t : State} :
    t ∈ a.closure seeds ↔ t < a.size ∧ ∃ s ∈ seeds, ReflTransGen a.EmptyMove s t := by
  rw [closure, mem_reach]
  exact Search.reached_iff (fun _ _ => mem_epsilonSuccessors) fun _ _ h => lt_size_of_moves h.moves

theorem mem_closure (hw : a.WellFormed) {seeds : List State} {t : State} :
    t ∈ a.closure seeds ↔ ∃ s ∈ seeds, s < a.size ∧ ReflTransGen a.EmptyMove s t := by
  rw [mem_closure_iff]
  constructor
  · rintro ⟨ht, s, hs, hp⟩
    rcases hp.cases_head with rfl | ⟨u, hsu, -⟩
    · exact ⟨s, hs, ht, hp⟩
    · exact ⟨s, hs, lt_size_of_moves hsu.moves, hp⟩
  · rintro ⟨s, hs, hlt, hp⟩
    rcases hp.cases_tail with rfl | ⟨u, -, hut⟩
    · exact ⟨hlt, t, hs, hp⟩
    · exact ⟨hw.lt_of_moves hut.moves, s, hs, hp⟩

/-- A closure depends on the members of the list only. -/
theorem closure_congr {seeds seeds' : List State} (h : ∀ s, s ∈ seeds ↔ s ∈ seeds') :
    a.closure seeds = a.closure seeds' := by
  apply OrderedSet.ext
  intro t
  simp only [closure, mem_reach, Search.Reached, h]

theorem lt_of_mem_closure {seeds : List State} {t : State} (h : t ∈ a.closure seeds) :
    t < a.size := (mem_statesBelow.1 h).1

theorem mem_closure_of_mem (hw : a.WellFormed) {seeds : List State} {s : State} (h : s ∈ seeds)
    (hs : s < a.size) : s ∈ a.closure seeds := (mem_closure hw).2 ⟨s, h, hs, .refl⟩

/-- Without empty moves a closure holds what it is the closure of. -/
theorem mem_closure_of_not_emptyMove (hw : a.WellFormed) (hnone : ∀ s t, ¬ a.EmptyMove s t)
    {seeds : List State} (hseeds : ∀ s ∈ seeds, s < a.size) {t : State} :
    t ∈ a.closure seeds ↔ t ∈ seeds := by
  rw [mem_closure hw]
  constructor
  · rintro ⟨s, hs, -, hst⟩
    rcases hst.cases_head with rfl | ⟨u, hsu, -⟩
    · exact hs
    · exact absurd hsu (hnone s u)
  · exact fun ht => ⟨t, ht, hseeds t ht, .refl⟩

theorem mem_reachable_iff {t : State} :
    t ∈ a.reachable ↔ t < a.size ∧ ∃ s, a.initial = some s ∧ ReflTransGen a.Moves s t := by
  rw [reachable, mem_reach, Search.reached_iff (fun _ _ => mem_successors) fun _ _ => lt_size_of_moves]
  simp only [Option.mem_toList]

theorem mem_reachable (hw : a.WellFormed) {t : State} :
    t ∈ a.reachable ↔ ∃ s, a.initial = some s ∧ ReflTransGen a.Moves s t := by
  rw [mem_reachable_iff, and_iff_right_iff_imp]
  rintro ⟨s, hs, hp⟩
  rcases hp.cases_tail with rfl | ⟨u, -, hut⟩
  · exact hw.initial_lt t hs
  · exact hw.lt_of_moves hut

/-- Whether some accepting state is reached. -/
def Productive (a : Automaton) (s : State) : Prop :=
  ∃ t, a.accepting t = true ∧ ReflTransGen a.Moves s t

theorem lt_size_of_accepting {s : State} (h : a.accepting s = true) : s < a.size := by
  apply Nat.lt_of_not_le
  intro hs
  rw [accepting, Array.getElem?_eq_none hs] at h
  cases h

theorem mem_acceptStates {s : State} : s ∈ a.acceptStates ↔ a.accepting s = true := by
  rw [acceptStates, List.mem_filter, states, List.mem_range]
  exact and_iff_right_of_imp lt_size_of_accepting

theorem mem_sources (t : State) (ht : t < a.size) (s : State) :
    s ∈ ((sourceTable a.size a.edges)[t]?.getD []) ↔ a.Moves s t := by
  rw [mem_sourceTable ht]
  constructor
  · rintro ⟨e, he, rfl, rfl⟩
    exact ⟨e.label, mem_edges.1 he⟩
  · rintro ⟨l, h⟩
    exact ⟨⟨s, l, t⟩, mem_edges.2 h, rfl, rfl⟩

theorem Productive.lt_size {s : State} (h : a.Productive s) : s < a.size := by
  obtain ⟨t, ht, hp⟩ := h
  rcases hp.cases_head with rfl | ⟨u, hsu, -⟩
  · exact lt_size_of_accepting ht
  · exact lt_size_of_moves hsu

/-- The search against the arrows finds what it should, as both ends of an arrow on a way to an
accepting state are members. -/
theorem has_searchBack {s : State} : a.searchBack.has s = true ↔ a.Productive s := by
  rw [searchBack, Search.has_searchFrom]
  constructor
  · rintro ⟨t, ht, hlt, hp⟩
    refine ⟨t, mem_acceptStates.1 ht, ?_⟩
    have key : s < a.size ∧ ReflTransGen a.Moves s t := by
      induction hp with
      | refl => exact ⟨hlt, .refl⟩
      | tail _ huv ih => exact ⟨huv.2, .head ((mem_sources _ ih.1 _).1 huv.1) ih.2⟩
    exact key.2
  · rintro ⟨t, ht, hp⟩
    refine ⟨t, mem_acceptStates.2 ht, lt_size_of_accepting ht, ?_⟩
    induction hp using ReflTransGen.head_induction_on with
    | refl => exact .refl
    | head hsu hut ih =>
      have hu : a.Productive _ := ⟨t, ht, hut⟩
      exact ih.tail ⟨(mem_sources _ hu.lt_size _).2 hsu, lt_size_of_moves hsu⟩

theorem mem_productive {s : State} : s ∈ a.productive ↔ a.Productive s := by
  rw [productive, mem_statesBelow, has_searchBack, and_iff_right_iff_imp]
  exact Productive.lt_size

end Automaton

end PatternAutomata
