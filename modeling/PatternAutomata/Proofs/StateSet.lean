import Mathlib.Data.Finset.Card
import Mathlib.Data.Finset.Dedup
import PatternAutomata.Order.Numbering
import PatternAutomata.StateSet

/-!
# Sets of states are canonical

The set that is collected from a list depends on nothing but which states the list holds.  Its members
ascend and are as many as there are different states, and to compare two sets is to compare the lists of
their members:

    collect l = collect m ↔ ∀ s, s ∈ l ↔ s ∈ m                              (collect_eq_collect_iff)
    (collect l).size = l.toFinset.card                                                (size_collect)
    compare s t = .lt ↔ s.toList < t.toList                                     (compare_eq_lt_iff)
-/

namespace PatternAutomata

namespace StateSet

variable {l m : List State} {s t : StateSet}

/-! ## Collecting -/

theorem collect_eq_collect_iff : collect l = collect m ↔ ∀ s, s ∈ l ↔ s ∈ m := by
  simp only [OrderedSet.ext_iff, mem_collect]

theorem toFinset_collect (l : List State) : (collect l).toList.toFinset = l.toFinset := by
  ext s
  rw [List.mem_toFinset, List.mem_toFinset, OrderedSet.mem_toList, mem_collect]

theorem size_collect (l : List State) : (collect l).size = l.toFinset.card := by
  rw [← toFinset_collect, List.toFinset_card_of_nodup (collect l).nodup_toList]
  rfl

/-! ## Comparing -/

/-- Lists of states are in lexicographic order. -/
theorem lt_list_iff {l m : List State} : StrictTotal.lt l m ↔ l < m := by
  induction l generalizing m with
  | nil => cases m <;> simp [StrictTotal.lt, StrictTotal.listLt]
  | cons a l ih =>
    cases m with
    | nil => simp [StrictTotal.lt, StrictTotal.listLt]
    | cons b m =>
      rw [List.cons_lt_cons_iff, ← ih]
      exact StrictTotal.lt_prod_iff (p := (a, l)) (q := (b, m))

theorem compare_eq_lt_iff : compare s t = .lt ↔ s.toList < t.toList :=
  StrictTotal.compare_eq_lt_iff.trans lt_list_iff

theorem compare_eq_eq_iff : compare s t = .eq ↔ s = t := StrictTotal.compare_eq_eq_iff

instance : Std.TransCmp compare := StrictTotal.instTransCmp

/-! ## One set for all lists of the same states -/

/-- Lists get one set when they hold the same states.  The set has its members ascending, one for each
different state of the list, and bisection finds those states and no others.  Sets are in the
lexicographic order of their members: one of two is the lesser unless they are the same, and what is not
greater is so through a third. -/
theorem collect_canonical (l m n : List State) :
    (collect l = collect m ↔ ∀ s, s ∈ l ↔ s ∈ m) ∧
      (collect l).toList.Pairwise (· < ·) ∧
      (collect l).size = l.toFinset.card ∧
      (∀ s, (collect l).contains s = true ↔ s ∈ l) ∧
      (compare (collect l) (collect m) = .lt ↔ (collect l).toList < (collect m).toList) ∧
      (compare (collect l) (collect m) = .eq ↔ collect l = collect m) ∧
      compare (collect m) (collect l) = (compare (collect l) (collect m)).swap ∧
      ((compare (collect l) (collect m)).isLE → (compare (collect m) (collect n)).isLE →
        (compare (collect l) (collect n)).isLE) := by
  refine ⟨collect_eq_collect_iff, (collect l).ascending, size_collect l, fun s => ?_,
    compare_eq_lt_iff, compare_eq_eq_iff, Std.OrientedCmp.eq_swap, Std.TransCmp.isLE_trans⟩
  rw [contains_iff, mem_collect]

theorem collect_canonical_repeats :
    collect [3, 1, 2, 1] = collect [2, 3, 1] ∧ (collect [3, 1, 2, 1]).size = 3 ∧
      (collect [3, 1, 2, 1]).contains 2 = true ∧ ¬ (collect [3, 1, 2, 1]).contains 4 = true ∧
      (compare (collect [3, 1, 2, 1]) (collect [1, 4])).isLE := by
  obtain ⟨hsame, -, hsize, hcontains, -, -, -, htrans⟩ := collect_canonical [3, 1, 2, 1] [2, 3, 1] [1, 4]
  refine ⟨hsame.2 fun s => ?_, hsize, (hcontains 2).2 (by decide), fun h => ?_, htrans ?_ ?_⟩
  · grind
  · exact absurd ((hcontains 4).1 h) (by decide)
  · decide
  · decide

example : (collect [3, 1, 2, 1]).toList = [1, 2, 3] := by decide

end StateSet

end PatternAutomata
