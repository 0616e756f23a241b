import PatternAutomata.Order.Bisection
import PatternAutomata.Order.OrderedSet
import PatternAutomata.Order.Sort
import PatternAutomata.Misuse

/-!
# Sets of states

A set of states has its members in ascending order, so sets with the same members are one value and
serve as keys.  A list is collected by sorting it and erasing the repeats, and a member is found by
bisection.  Sets compare by their members from the least one on.
-/

namespace PatternAutomata

/-- A finite set of states. -/
abbrev StateSet := OrderedSet State

namespace StateSet

/-- The states of a list, sorted and without repeats. -/
def collect (l : List State) : StateSet := ⟨(sort l).eraseReps, pairwise_eraseReps (pairwise_sort l)⟩

/-- Whether a state is a member, by bisection of the members. -/
def contains (set : StateSet) (s : State) : Bool := (bisect set.toList.toArray s).isOk

/-- The order of two sets: their members decide at the first difference. -/
def compare (s t : StateSet) : Ordering := StrictTotal.compare s t

/-- The members in braces. -/
def text (s : StateSet) : String :=
  "\x7b" ++ ", ".intercalate (s.toList.map toString) ++ "\x7d"

@[simp] theorem mem_collect {s : State} {l : List State} : s ∈ collect l ↔ s ∈ l := by
  rw [OrderedSet.mem_def, collect, mem_eraseReps, mem_sort]

@[simp] theorem contains_iff {set : StateSet} {s : State} : set.contains s = true ↔ s ∈ set := by
  have hasc : set.toList.toArray.toList.Pairwise StrictTotal.lt := set.ascending
  have hplace : s ∈ set ↔ ∃ i, bisect set.toList.toArray s = .ok i := by
    simp only [bisect_eq_ok_iff hasc, OrderedSet.mem_def, List.mem_iff_getElem?, List.getElem?_toArray]
  rw [hplace, contains]
  cases bisect set.toList.toArray s with
  | ok i => simp [Except.isOk, Except.toBool]
  | error i => simp [Except.isOk, Except.toBool]

end StateSet

end PatternAutomata
