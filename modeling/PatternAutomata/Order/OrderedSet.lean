import PatternAutomata.Order.Basic

/-!
# Finite sets as ascending lists

An `OrderedSet` is a list whose elements strictly ascend, so a set has one representation:

    s = t ↔ ∀ x, x ∈ s ↔ x ∈ t                 (ext_iff)
    ofList l = ofList m ↔ ∀ x, x ∈ l ↔ x ∈ m    (ofList_eq_ofList_iff)
-/

namespace PatternAutomata

open StrictTotal

/-- A finite set, kept as the list of its elements in ascending order. -/
structure OrderedSet (α : Type) [StrictTotal α] where
  toList : List α
  ascending : toList.Pairwise lt

namespace OrderedSet

variable {α : Type} [StrictTotal α]

instance : Membership α (OrderedSet α) := ⟨fun s a => a ∈ s.toList⟩

theorem mem_def {a : α} {s : OrderedSet α} : a ∈ s ↔ a ∈ s.toList := Iff.rfl

instance [DecidableEq α] (a : α) (s : OrderedSet α) : Decidable (a ∈ s) :=
  inferInstanceAs (Decidable (a ∈ s.toList))

@[simp] theorem mem_toList {a : α} {s : OrderedSet α} : a ∈ s.toList ↔ a ∈ s := Iff.rfl

theorem eq_of_toList_eq {s t : OrderedSet α} (h : s.toList = t.toList) : s = t := by
  cases s; cases t; cases h; rfl

instance [DecidableEq α] : DecidableEq (OrderedSet α) := fun s t =>
  decidable_of_iff (s.toList = t.toList) ⟨eq_of_toList_eq, congrArg _⟩

/-- Sets by their elements from the least one on. -/
instance : StrictTotal (OrderedSet α) := comap toList fun _ _ => eq_of_toList_eq

/-! ## Building -/

/-- The set without elements. -/
def empty : OrderedSet α := ⟨[], .nil⟩

/-- Puts `a` at its place in an ascending list, unless it is there already. -/
def insertAscending (a : α) : List α → List α
  | [] => [a]
  | b :: bs =>
    if lt a b then a :: b :: bs
    else if lt b a then b :: insertAscending a bs
    else b :: bs

theorem mem_insertAscending {x a : α} {l : List α} :
    x ∈ insertAscending a l ↔ x = a ∨ x ∈ l := by
  induction l with
  | nil => simp [insertAscending]
  | cons b bs ih =>
    unfold insertAscending
    split
    · simp
    · next h =>
      split
      · simp only [List.mem_cons, ih]; exact or_left_comm
      · next h' =>
        have e : a = b := eq_of_not_lt h h'
        subst e
        simp

theorem pairwise_insertAscending {a : α} {l : List α} (h : l.Pairwise lt) :
    (insertAscending a l).Pairwise lt := by
  induction l with
  | nil => simp [insertAscending]
  | cons b bs ih =>
    obtain ⟨hb, hbs⟩ := List.pairwise_cons.1 h
    unfold insertAscending
    split
    · next hab =>
      refine List.pairwise_cons.2 ⟨fun x hx => ?_, h⟩
      rcases List.mem_cons.1 hx with rfl | hx
      · exact hab
      · exact trans hab (hb x hx)
    · split
      · next hba =>
        refine List.pairwise_cons.2 ⟨fun x hx => ?_, ih hbs⟩
        rcases mem_insertAscending.1 hx with rfl | hx
        · exact hba
        · exact hb x hx
      · exact h

/-- The set with `a` added. -/
def insert (a : α) (s : OrderedSet α) : OrderedSet α :=
  ⟨insertAscending a s.toList, pairwise_insertAscending s.ascending⟩

/-- The elements of a list, in order and without repeats. -/
def ofList (l : List α) : OrderedSet α := l.foldr insert empty

/-- All elements of either set. -/
def union (s t : OrderedSet α) : OrderedSet α := s.toList.foldr insert t

/-- The elements that pass a test. -/
def filter (p : α → Bool) (s : OrderedSet α) : OrderedSet α :=
  ⟨s.toList.filter p, s.ascending.filter p⟩

/-- Number of elements. -/
def size (s : OrderedSet α) : Nat := s.toList.length

def isEmpty (s : OrderedSet α) : Bool := s.toList.isEmpty

/-! ## Membership -/

@[simp] theorem not_mem_empty {x : α} : x ∉ (empty : OrderedSet α) := List.not_mem_nil

@[simp] theorem mem_insert {x a : α} {s : OrderedSet α} : x ∈ insert a s ↔ x = a ∨ x ∈ s :=
  mem_insertAscending

@[simp] theorem mem_ofList {x : α} {l : List α} : x ∈ ofList l ↔ x ∈ l := by
  unfold ofList
  induction l with
  | nil => simp
  | cons a l ih => simp [ih]

@[simp] theorem mem_union {x : α} {s t : OrderedSet α} : x ∈ union s t ↔ x ∈ s ∨ x ∈ t := by
  unfold union
  rw [mem_def (s := s)]
  induction s.toList with
  | nil => simp
  | cons a l ih => simp [ih, or_assoc]

@[simp] theorem mem_filter {x : α} {p : α → Bool} {s : OrderedSet α} :
    x ∈ filter p s ↔ x ∈ s ∧ p x = true := List.mem_filter

theorem isEmpty_iff {s : OrderedSet α} : s.isEmpty = true ↔ ∀ x, x ∉ s := by
  rw [isEmpty, List.isEmpty_iff, List.eq_nil_iff_forall_not_mem]; rfl

/-! ## One representation -/

theorem nodup_toList (s : OrderedSet α) : s.toList.Nodup := s.ascending.imp StrictTotal.ne_of_lt

theorem eq_of_mem_iff {l m : List α} (hl : l.Pairwise lt) (hm : m.Pairwise lt)
    (h : ∀ x, x ∈ l ↔ x ∈ m) : l = m := StrictTotal.eq_of_mem_iff id hl hm h

theorem ext {s t : OrderedSet α} (h : ∀ x, x ∈ s ↔ x ∈ t) : s = t :=
  eq_of_toList_eq (eq_of_mem_iff s.ascending t.ascending h)

theorem ext_iff {s t : OrderedSet α} : s = t ↔ ∀ x, x ∈ s ↔ x ∈ t :=
  ⟨fun e _ => e ▸ Iff.rfl, ext⟩

theorem ofList_eq_ofList_iff {l m : List α} : ofList l = ofList m ↔ ∀ x, x ∈ l ↔ x ∈ m := by
  simp [ext_iff]

theorem toList_ofList {l : List α} (h : l.Pairwise lt) : (ofList l).toList = l :=
  eq_of_mem_iff (ofList l).ascending h fun _ => mem_ofList

end OrderedSet

end PatternAutomata
