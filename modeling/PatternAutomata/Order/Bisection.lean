import PatternAutomata.Order.Basic

/-!
# Bisection

The element in the middle of the places that are left tells in which half of them an element can be.
In an ascending array this finds the place of an element, or else the place where it belongs:

    bisect xs x = .ok i ↔ xs[i]? = some x                               (bisect_eq_ok_iff)
    bisect xs x = .error i → i ≤ xs.size ∧ Encloses xs x i i            (encloses_of_bisect)
-/

namespace PatternAutomata

open StrictTotal

variable {α : Type} [StrictTotal α]

/-- Looks for `x` at the places of `xs` from `lo` on and before `hi`. -/
def bisectFrom (xs : Array α) (x : α) (lo hi : Nat) (h : hi ≤ xs.size) : Except Nat Nat :=
  if hlt : lo < hi then
    match StrictTotal.compare xs[(lo + hi) / 2] x with
    | .lt => bisectFrom xs x ((lo + hi) / 2 + 1) hi h
    | .eq => .ok ((lo + hi) / 2)
    | .gt => bisectFrom xs x lo ((lo + hi) / 2) (by omega)
  else .error lo
termination_by hi - lo

/-- The place of `x` in an ascending array, or else the place where it belongs. -/
def bisect (xs : Array α) (x : α) : Except Nat Nat := bisectFrom xs x 0 xs.size (Nat.le_refl _)

/-- What is in front of `lo` comes before `x`, and what is at `hi` or behind it comes after `x`. -/
structure Encloses (xs : Array α) (x : α) (lo hi : Nat) : Prop where
  below : ∀ i (h : i < xs.size), i < lo → lt xs[i] x
  above : ∀ i (h : i < xs.size), hi ≤ i → lt x xs[i]

variable {xs : Array α} {x : α} {lo hi i j : Nat}

theorem encloses_all (xs : Array α) (x : α) : Encloses xs x 0 xs.size :=
  ⟨fun _ _ h => absurd h (Nat.not_lt_zero _), fun _ h h' => absurd h (Nat.not_lt.2 h')⟩

/-- What one place encloses is not in the array. -/
theorem Encloses.getElem?_ne (h : Encloses xs x i i) (j : Nat) : xs[j]? ≠ some x := by
  intro hj
  obtain ⟨hsize, rfl⟩ := Array.getElem?_eq_some_iff.1 hj
  rcases Nat.lt_or_ge j i with hji | hij
  · exact irrefl _ (h.below j hsize hji)
  · exact irrefl _ (h.above j hsize hij)

theorem getElem?_of_bisectFrom {h : hi ≤ xs.size} (hok : bisectFrom xs x lo hi h = .ok i) :
    xs[i]? = some x := by
  fun_induction bisectFrom xs x lo hi h with
  | case1 lo hi h hlt hcmp ih => exact ih hok
  | case2 lo hi h hlt hcmp =>
    cases hok
    rw [Array.getElem?_eq_getElem (by omega), compare_eq_eq_iff.1 hcmp]
  | case3 lo hi h hlt hcmp ih => exact ih hok
  | case4 => cases hok

section Ascending

variable (hs : xs.toList.Pairwise lt)
include hs

theorem lt_getElem (hij : i < j) (hj : j < xs.size) : lt xs[i] xs[j] :=
  List.pairwise_iff_getElem.1 hs i j (Nat.lt_trans hij hj) hj hij

/-- What comes before `x` takes all in front of it along. -/
theorem Encloses.raise (h : Encloses xs x lo hi) (hsize : i < xs.size) (hlt : lt xs[i] x) :
    Encloses xs x (i + 1) hi := by
  refine ⟨fun j hj hji => ?_, h.above⟩
  rcases Nat.lt_succ_iff_lt_or_eq.1 hji with hji | rfl
  · exact trans (lt_getElem hs hji hsize) hlt
  · exact hlt

/-- What comes after `x` takes all behind it along. -/
theorem Encloses.lower (h : Encloses xs x lo hi) (hsize : i < xs.size) (hlt : lt x xs[i]) :
    Encloses xs x lo i := by
  refine ⟨h.below, fun j hj hij => ?_⟩
  rcases Nat.lt_or_eq_of_le hij with hij | rfl
  · exact trans hlt (lt_getElem hs hij hj)
  · exact hlt

/-- The search keeps `x` enclosed, and gives up where one place is left to belong to. -/
theorem encloses_of_bisectFrom {h : hi ≤ xs.size} (hle : lo ≤ hi) (henc : Encloses xs x lo hi)
    (herr : bisectFrom xs x lo hi h = .error i) : i ≤ xs.size ∧ Encloses xs x i i := by
  fun_induction bisectFrom xs x lo hi h with
  | case1 lo hi h hlt hcmp ih =>
    exact ih (by omega) (henc.raise hs _ (compare_eq_lt_iff.1 hcmp)) herr
  | case2 => cases herr
  | case3 lo hi h hlt hcmp ih =>
    exact ih (by omega) (henc.lower hs _ (compare_eq_gt_iff.1 hcmp)) herr
  | case4 lo hi h hlt =>
    obtain rfl : lo = hi := Nat.le_antisymm hle (Nat.not_lt.1 hlt)
    cases herr
    exact ⟨h, henc⟩

theorem encloses_of_bisect (h : bisect xs x = .error i) : i ≤ xs.size ∧ Encloses xs x i i :=
  encloses_of_bisectFrom hs (Nat.zero_le _) (encloses_all xs x) h

theorem not_lt_of_getElem?_eq_some (hi : xs[i]? = some x) (hj : xs[j]? = some x) : ¬ i < j := by
  intro hij
  obtain ⟨hisize, rfl⟩ := Array.getElem?_eq_some_iff.1 hi
  obtain ⟨hjsize, heq⟩ := Array.getElem?_eq_some_iff.1 hj
  exact ne_of_lt (lt_getElem hs hij hjsize) heq.symm

theorem bisect_eq_ok_iff : bisect xs x = .ok i ↔ xs[i]? = some x := by
  refine ⟨getElem?_of_bisectFrom, fun hi => ?_⟩
  cases h : bisect xs x with
  | ok j =>
    have hj : xs[j]? = some x := getElem?_of_bisectFrom h
    have hle := Nat.not_lt.1 (not_lt_of_getElem?_eq_some hs hi hj)
    have hge := Nat.not_lt.1 (not_lt_of_getElem?_eq_some hs hj hi)
    rw [Nat.le_antisymm hle hge]
  | error j => exact absurd hi ((encloses_of_bisect hs h).2.getElem?_ne i)

end Ascending

end PatternAutomata
