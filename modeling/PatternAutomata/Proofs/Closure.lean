import PatternAutomata.Proofs.Reach

/-!
# Closures

A search makes as many looks as there are states at most.  Without a bound it would end as well and with
the same marks (`Search.ends_searchFrom`), as each look takes away from the work, the states without a
mark and those to do.  What is marked in the end is the least set of members that holds the seeds and
with a state all members that empty moves lead to:

    t ∈ a.closure seeds ↔ t < a.size ∧ empty moves lead from some s ∈ seeds to t         (mem_closure_iff)
    t ∈ a.closure seeds ↔ ∃ s ∈ seeds, t ∈ a.closure [s]                                 (mem_closure_union)
    a.closure (a.closure seeds).toList = a.closure seeds                                  (closure_closure)
-/

namespace PatternAutomata

open Relation

namespace Search

variable {succ : State → List State} {x : Search}

/-- How a search ends that goes on as long as there are states to do. -/
inductive Ends (succ : State → List State) : Search → Search → Prop
  | done (met : Array Bool) : Ends succ ⟨met, []⟩ ⟨met, []⟩
  | look {met : Array Bool} {s : State} {rest : List State} {y : Search} :
    Ends succ ((succ s).foldl meet ⟨met, rest⟩) y → Ends succ ⟨met, s :: rest⟩ y

theorem ends_run {fuel : Nat} (hfuel : x.work ≤ fuel) : Ends succ x (x.run succ fuel) := by
  induction fuel generalizing x with
  | zero =>
    obtain ⟨met, todo⟩ := x
    simp only [work, Nat.le_zero, Nat.add_eq_zero_iff, List.length_eq_zero_iff] at hfuel
    obtain ⟨-, rfl⟩ := hfuel
    exact .done met
  | succ fuel ih =>
    obtain ⟨met, todo⟩ := x
    cases todo with
    | nil => exact .done met
    | cons s rest =>
      refine .look (ih ?_)
      rw [work_foldl_meet]
      simp only [work, List.length_cons] at hfuel ⊢
      omega

theorem ends_searchFrom (n : Nat) (seeds : List State) :
    Ends succ (seeds.foldl meet (start n)) (searchFrom n succ seeds) :=
  ends_run (Nat.le_of_eq (work_seeds n seeds))

end Search

namespace Automaton

variable {a : Automaton} {seeds : List State} {s t : State}

theorem checkedClosure_eq (hseeds : ∀ s ∈ seeds, s < a.size) :
    a.checkedClosure seeds = .ok (a.closure seeds) := by
  have hnone : (seeds.find? fun s => decide (a.size ≤ s)) = none := by
    rw [List.find?_eq_none]
    intro s hs h
    exact Nat.not_lt.2 (of_decide_eq_true h) (hseeds s hs)
  rw [checkedClosure, hnone]

theorem mem_closure_seed (hs : s ∈ seeds) (hlt : s < a.size) : s ∈ a.closure seeds :=
  mem_closure_iff.2 ⟨hlt, s, hs, .refl⟩

theorem mem_closure_of_emptyMove (hs : s ∈ a.closure seeds) (hst : a.EmptyMove s t)
    (hlt : t < a.size) : t ∈ a.closure seeds := by
  obtain ⟨-, r, hr, hrs⟩ := mem_closure_iff.1 hs
  exact mem_closure_iff.2 ⟨hlt, r, hr, hrs.tail hst⟩

/-- Every set that holds the seeds and what empty moves lead to holds the closure.  The way to a member
passes members only. -/
theorem mem_of_mem_closure {C : State → Prop} (hseeds : ∀ s ∈ seeds, C s)
    (hmoves : ∀ s t, C s → a.EmptyMove s t → t < a.size → C t) (ht : t ∈ a.closure seeds) : C t := by
  obtain ⟨hlt, s, hs, hst⟩ := mem_closure_iff.1 ht
  induction hst with
  | refl => exact hseeds s hs
  | tail hsu hut ih =>
    have hlt' := lt_size_of_moves hut.moves
    exact hmoves _ _ (ih (mem_closure_iff.2 ⟨hlt', s, hs, hsu⟩) hlt') hut hlt

theorem mem_closure_union : t ∈ a.closure seeds ↔ ∃ s ∈ seeds, t ∈ a.closure [s] := by
  simp only [mem_closure_iff, List.mem_singleton, exists_eq_left]
  constructor
  · rintro ⟨hlt, s, hs, hst⟩
    exact ⟨s, hs, hlt, hst⟩
  · rintro ⟨s, hs, hlt, hst⟩
    exact ⟨hlt, s, hs, hst⟩

theorem closure_closure (a : Automaton) (seeds : List State) :
    a.closure (a.closure seeds).toList = a.closure seeds := by
  refine OrderedSet.ext fun t => ⟨fun ht => ?_, fun ht => ?_⟩
  · exact mem_of_mem_closure (fun _ hs => hs) (fun _ _ => mem_closure_of_emptyMove) ht
  · exact mem_closure_seed (OrderedSet.mem_toList.2 ht) (lt_of_mem_closure ht)

/-- Whatever the empty moves are, the search from members ends.  The closure is what it marks, the
members that empty moves lead to from the seeds, and the least set of members that holds the seeds and is
closed under empty moves.  It is the same for all lists of the same states, it is the union of the
closures of the seeds, and it is its own closure. -/
theorem closure_least (hseeds : ∀ s ∈ seeds, s < a.size) :
    ∃ x set, Search.Ends a.epsilonSuccessors (seeds.foldl Search.meet (Search.start a.size)) x ∧
      a.checkedClosure seeds = .ok set ∧ (∀ t, t ∈ set ↔ x.has t = true) ∧
      (∀ t, t ∈ set ↔ t < a.size ∧ ∃ s ∈ seeds, ReflTransGen a.EmptyMove s t) ∧
      (∀ s ∈ seeds, s ∈ set) ∧ (∀ s ∈ set, ∀ t, a.EmptyMove s t → t < a.size → t ∈ set) ∧
      (∀ C : State → Prop, (∀ s ∈ seeds, C s) →
        (∀ s t, C s → a.EmptyMove s t → t < a.size → C t) → ∀ t ∈ set, C t) ∧
      (∀ seeds', (∀ s, s ∈ seeds' ↔ s ∈ seeds) → a.checkedClosure seeds' = .ok set) ∧
      (∀ t, t ∈ set ↔ ∃ s ∈ seeds, ∃ one, a.checkedClosure [s] = .ok one ∧ t ∈ one) ∧
      a.checkedClosure set.toList = .ok set := by
  refine ⟨_, a.closure seeds, Search.ends_searchFrom a.size seeds, checkedClosure_eq hseeds, ?marks,
    fun t => mem_closure_iff, fun s hs => mem_closure_seed hs (hseeds s hs),
    fun s hs t => mem_closure_of_emptyMove hs, fun C hC hmoves t => mem_of_mem_closure hC hmoves,
    ?same, ?union, ?again⟩
  case marks =>
    intro t
    rw [closure, reach, mem_statesBelow, and_iff_right_iff_imp]
    exact fun h => (Search.has_searchFrom.1 h).lt
  case same =>
    intro seeds' hsame
    rw [checkedClosure_eq fun s hs => hseeds s ((hsame s).1 hs), closure_congr hsame]
  case union =>
    intro t
    rw [mem_closure_union]
    refine exists_congr fun s => and_congr_right fun hs => ?_
    rw [checkedClosure_eq (List.forall_mem_singleton.2 (hseeds s hs))]
    simp
  case again =>
    rw [checkedClosure_eq fun s => lt_of_mem_closure, closure_closure]

/-- Three states on a cycle of empty moves, and one that is read into. -/
def emptyCycle : Automaton where
  nodes := #[
    { name := "S0", arrows := .ofList [⟨.epsilon, 1⟩] },
    { name := "S1", arrows := .ofList [⟨.epsilon, 2⟩] },
    { name := "S2", arrows := .ofList [⟨.epsilon, 0⟩, ⟨.symbol 'x', 3⟩] },
    { name := "S3" }]
  initial := some 0

theorem closure_least_emptyCycle :
    (∀ s ∈ [1, 0, 1], s < emptyCycle.size) ∧
    ∃ x, Search.Ends emptyCycle.epsilonSuccessors
        ([1, 0, 1].foldl Search.meet (Search.start emptyCycle.size)) x ∧
      emptyCycle.checkedClosure [1, 0, 1] = .ok (OrderedSet.ofList [0, 1, 2]) ∧
      (∀ t, t ∈ (OrderedSet.ofList [0, 1, 2] : StateSet) ↔ x.has t = true) ∧
      emptyCycle.checkedClosure [0, 1] = .ok (OrderedSet.ofList [0, 1, 2]) ∧
      ReflTransGen emptyCycle.EmptyMove 1 0 := by
  have hseeds : ∀ s ∈ [1, 0, 1], s < emptyCycle.size := by decide
  obtain ⟨x, set, hends, hset, hmarks, -, -, -, -, hsame, hunion, -⟩ := closure_least hseeds
  have heq : set = OrderedSet.ofList [0, 1, 2] := by
    have hok : emptyCycle.checkedClosure [1, 0, 1] = .ok (OrderedSet.ofList [0, 1, 2]) := by rfl
    cases hset.symm.trans hok
    rfl
  subst heq
  have hlone : ∀ s ∈ [1], s < emptyCycle.size := by decide
  obtain ⟨-, one, -, hone, -, hreached, -⟩ := closure_least hlone
  have hzero : 0 ∈ one := by
    have hok : emptyCycle.checkedClosure [1] = .ok (OrderedSet.ofList [0, 1, 2]) := by rfl
    cases hone.symm.trans hok
    decide
  obtain ⟨-, s, hs, hway⟩ := (hreached 0).1 hzero
  cases List.mem_singleton.1 hs
  refine ⟨hseeds, x, hends, hset, hmarks, hsame [0, 1] fun s => ?_, hway⟩
  grind

end Automaton

end PatternAutomata
