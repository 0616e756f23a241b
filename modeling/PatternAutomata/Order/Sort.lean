import PatternAutomata.Order.Basic

/-!
# Sorting by a strict total order

`sort` keeps repeats, which a set would lose: two labels with the same bounds stay two.  Sorting brings
equal elements together, so that erasing repeats from a sorted list leaves one of each:

    (sort l).eraseReps.Pairwise lt              (pairwise_eraseReps (pairwise_sort l))
    x ∈ (sort l).eraseReps ↔ x ∈ l              (mem_eraseReps, mem_sort)
-/

namespace PatternAutomata

open StrictTotal

variable {α : Type} [StrictTotal α]

/-- Puts `a` before the first element that does not come before it. -/
def insertSorted (a : α) : List α → List α
  | [] => [a]
  | b :: bs => if lt b a then b :: insertSorted a bs else a :: b :: bs

/-- The elements in ascending order, repeats included. -/
def sort (l : List α) : List α := l.foldr insertSorted []

theorem insertSorted_perm (a : α) (l : List α) : (insertSorted a l).Perm (a :: l) := by
  induction l with
  | nil => exact .refl _
  | cons b bs ih =>
    unfold insertSorted
    split
    · exact (ih.cons b).trans (.swap a b bs)
    · exact .refl _

theorem sort_perm (l : List α) : (sort l).Perm l := by
  induction l with
  | nil => exact .refl _
  | cons a l ih => exact (insertSorted_perm a _).trans (ih.cons a)

theorem pairwise_insertSorted {a : α} {l : List α} (h : l.Pairwise fun x y => ¬ lt y x) :
    (insertSorted a l).Pairwise fun x y => ¬ lt y x := by
  induction l with
  | nil => simp [insertSorted]
  | cons b bs ih =>
    obtain ⟨hb, hbs⟩ := List.pairwise_cons.1 h
    unfold insertSorted
    split
    · next hba =>
      refine List.pairwise_cons.2 ⟨fun x hx => ?_, ih hbs⟩
      rcases List.mem_cons.1 ((insertSorted_perm a bs).mem_iff.1 hx) with rfl | hx
      · exact not_lt_of_lt hba
      · exact hb x hx
    · next hba =>
      refine List.pairwise_cons.2 ⟨fun x hx => ?_, h⟩
      rcases List.mem_cons.1 hx with rfl | hx
      · exact hba
      · intro hxa
        by_cases hxb : lt x b
        · exact hb x hx hxb
        · by_cases e : b = x
          · exact hba (e ▸ hxa)
          · exact hba (trans (lt_of_not_lt_of_ne hxb e) hxa)

theorem pairwise_sort (l : List α) : (sort l).Pairwise fun x y => ¬ lt y x := by
  induction l with
  | nil => exact .nil
  | cons a l ih => exact pairwise_insertSorted ih

@[simp] theorem mem_sort {a : α} {l : List α} : a ∈ sort l ↔ a ∈ l := (sort_perm l).mem_iff

/-! ## Erasing repeats -/

section Repeats

omit [StrictTotal α]

theorem eraseRepsBy_loop_eq (r : α → α → Bool) (a : α) (l acc : List α) :
    List.eraseRepsBy.loop r a l acc = acc.reverse ++ List.eraseRepsBy.loop r a l [] := by
  induction l generalizing a acc with
  | nil => simp [List.eraseRepsBy.loop]
  | cons b l ih =>
    cases h : r a b with
    | true => simpa [List.eraseRepsBy.loop, h] using ih a acc
    | false =>
      simp only [List.eraseRepsBy.loop, h]
      rw [ih b (a :: acc), ih b [a]]
      simp

variable [DecidableEq α]

theorem eraseReps_cons_cons (a b : α) (l : List α) :
    (a :: b :: l).eraseReps = if a = b then (a :: l).eraseReps else a :: (b :: l).eraseReps := by
  by_cases h : a = b
  · simp [List.eraseReps, List.eraseRepsBy, List.eraseRepsBy.loop, h]
  · simp only [List.eraseReps, List.eraseRepsBy, List.eraseRepsBy.loop, beq_eq_false_iff_ne.2 h, if_neg h]
    exact eraseRepsBy_loop_eq _ b l [a]

@[simp] theorem mem_eraseReps {x : α} {l : List α} : x ∈ l.eraseReps ↔ x ∈ l := by
  cases l with
  | nil => rfl
  | cons a l =>
    induction l generalizing a with
    | nil => rfl
    | cons b l ih =>
      rw [eraseReps_cons_cons]
      split
      · next hab => rw [ih, hab]; simp
      · simp only [List.mem_cons, ih]

end Repeats

theorem pairwise_eraseReps [DecidableEq α] {l : List α} (h : l.Pairwise fun x y => ¬ lt y x) :
    l.eraseReps.Pairwise lt := by
  cases l with
  | nil => exact .nil
  | cons a l =>
    induction l generalizing a with
    | nil => exact List.pairwise_singleton lt a
    | cons b l ih =>
      obtain ⟨ha, hbl⟩ := List.pairwise_cons.1 h
      rw [eraseReps_cons_cons]
      split
      · next hab => exact hab ▸ ih b hbl
      · next hab =>
        have hlt : lt a b := lt_of_not_lt_of_ne (ha b List.mem_cons_self) hab
        refine List.pairwise_cons.2 ⟨fun x hx => ?_, ih b hbl⟩
        rcases List.mem_cons.1 (mem_eraseReps.1 hx) with rfl | hx
        · exact hlt
        · by_cases hbx : b = x
          · exact hbx ▸ hlt
          · exact trans hlt (lt_of_not_lt_of_ne ((List.pairwise_cons.1 hbl).1 x hx) hbx)

end PatternAutomata
