/-!
# Strict total orders with a decidable test

Ascending sets and maps keep their elements in an order that is part of the result: labels come
out by kind and then by code point, names by code point, groups by signature.  `StrictTotal` is
that order, and it is built from three pieces:

    numbers          by size
    pairs            by the first part, then by the second
    lists            by the first difference, a proper beginning first

and every other type takes its order from one of these through an injective key (`comap`).
-/

namespace PatternAutomata

/-- A strict total order on `α` whose test can be run. -/
class StrictTotal (α : Type) where
  lt : α → α → Prop
  decideLt : ∀ a b, Decidable (lt a b)
  irrefl : ∀ a, ¬ lt a a
  trans : ∀ {a b c}, lt a b → lt b c → lt a c
  eq_of_not_lt : ∀ {a b}, ¬ lt a b → ¬ lt b a → a = b

namespace StrictTotal

variable {α β : Type}

instance instDecidableLt [StrictTotal α] (a b : α) : Decidable (lt a b) := decideLt a b

/-! ## Facts about any strict total order -/

theorem ne_of_lt [StrictTotal α] {a b : α} (h : lt a b) : a ≠ b :=
  fun e => irrefl b (e ▸ h)

theorem not_lt_of_lt [StrictTotal α] {a b : α} (h : lt a b) : ¬ lt b a :=
  fun h' => irrefl a (trans h h')

theorem lt_of_not_lt_of_ne [StrictTotal α] {a b : α} (h : ¬ lt b a) (hne : a ≠ b) : lt a b :=
  Decidable.byContradiction fun h' => hne (eq_of_not_lt h' h)

/-- Three-way comparison. -/
def compare [StrictTotal α] (a b : α) : Ordering :=
  if lt a b then .lt else if lt b a then .gt else .eq

theorem compare_eq_lt_iff [StrictTotal α] {a b : α} : compare a b = .lt ↔ lt a b := by
  unfold compare; split
  · simp [*]
  · split <;> simp [*]

theorem compare_eq_gt_iff [StrictTotal α] {a b : α} : compare a b = .gt ↔ lt b a := by
  unfold compare; split
  · next h => simp [not_lt_of_lt h]
  · split <;> simp [*]

theorem compare_eq_eq_iff [StrictTotal α] {a b : α} : compare a b = .eq ↔ a = b := by
  unfold compare; split
  · next h => simp [ne_of_lt h]
  · split
    · next h => simp [(ne_of_lt h).symm]
    · next h h' => simp [eq_of_not_lt h h']

/-- Lists that ascend by a key are the same when they have the same elements. -/
theorem eq_of_mem_iff [StrictTotal β] (key : α → β) {l m : List α}
    (hl : l.Pairwise fun x y => lt (key x) (key y)) (hm : m.Pairwise fun x y => lt (key x) (key y))
    (h : ∀ x, x ∈ l ↔ x ∈ m) : l = m := by
  have hne : ∀ {x y : α}, lt (key x) (key y) → x ≠ y := fun hlt e => ne_of_lt hlt (congrArg key e)
  have hperm : l.Perm m := (List.perm_ext_iff_of_nodup (hl.imp hne) (hm.imp hne)).2 h
  exact hperm.eq_of_pairwise (fun x y _ _ hxy hyx => absurd hyx (not_lt_of_lt hxy)) hl hm

/-! ## Numbers, keys, pairs, lists -/

instance instNat : StrictTotal Nat where
  lt a b := a < b
  decideLt a b := Nat.decLt a b
  irrefl := Nat.lt_irrefl
  trans := Nat.lt_trans
  eq_of_not_lt h h' := by omega

@[simp] theorem lt_nat_iff {a b : Nat} : lt a b ↔ a < b := Iff.rfl

/-- The order of `β` read through an injective key. -/
@[reducible] def comap [StrictTotal β] (key : α → β) (inj : ∀ a b, key a = key b → a = b) :
    StrictTotal α where
  lt a b := lt (key a) (key b)
  decideLt a b := decideLt (key a) (key b)
  irrefl a := irrefl (key a)
  trans h h' := trans h h'
  eq_of_not_lt h h' := inj _ _ (eq_of_not_lt h h')

instance instProd [StrictTotal α] [StrictTotal β] : StrictTotal (α × β) where
  lt p q := lt p.1 q.1 ∨ ¬ lt q.1 p.1 ∧ lt p.2 q.2
  decideLt _ _ := inferInstance
  irrefl p h := h.elim (irrefl p.1) fun h => irrefl p.2 h.2
  trans := by
    rintro a b c (h | ⟨h, h₂⟩) (h' | ⟨h', h₂'⟩)
    · exact .inl (trans h h')
    · by_cases e : b.1 = c.1
      · exact .inl (e ▸ h)
      · exact .inl (trans h (lt_of_not_lt_of_ne h' e))
    · by_cases e : a.1 = b.1
      · exact .inl (e ▸ h')
      · exact .inl (trans (lt_of_not_lt_of_ne h e) h')
    · refine .inr ⟨fun hca => ?_, trans h₂ h₂'⟩
      by_cases e : b.1 = c.1
      · exact h (e ▸ hca)
      · exact h (trans (lt_of_not_lt_of_ne h' e) hca)
  eq_of_not_lt := by
    rintro ⟨a, x⟩ ⟨b, y⟩ h h'
    simp only [not_or, not_and] at h h'
    have e : a = b := eq_of_not_lt h.1 h'.1
    subst e
    exact congrArg _ (eq_of_not_lt (h.2 (irrefl a)) (h'.2 (irrefl a)))

theorem lt_prod_iff [StrictTotal α] [StrictTotal β] {p q : α × β} :
    lt p q ↔ lt p.1 q.1 ∨ p.1 = q.1 ∧ lt p.2 q.2 := by
  constructor
  · rintro (h | ⟨h, h'⟩)
    · exact .inl h
    · by_cases e : p.1 = q.1
      · exact .inr ⟨e, h'⟩
      · exact .inl (lt_of_not_lt_of_ne h e)
  · rintro (h | ⟨h, h'⟩)
    · exact .inl h
    · exact .inr ⟨h ▸ irrefl _, h'⟩

/-- The first difference decides, and a proper beginning comes first. -/
def listLt [StrictTotal α] : List α → List α → Prop
  | _, [] => False
  | [], _ :: _ => True
  | a :: as, b :: bs => lt a b ∨ ¬ lt b a ∧ listLt as bs

def decideListLt [StrictTotal α] : (as bs : List α) → Decidable (listLt as bs)
  | [], [] => isFalse id
  | _ :: _, [] => isFalse id
  | [], _ :: _ => isTrue trivial
  | a :: as, b :: bs =>
    if h : lt a b then isTrue (.inl h)
    else if h' : lt b a then isFalse fun e => e.elim h fun e => e.1 h'
    else
      match decideListLt as bs with
      | isTrue t => isTrue (.inr ⟨h', t⟩)
      | isFalse t => isFalse fun e => e.elim h fun e => t e.2

theorem listLt_irrefl [StrictTotal α] : ∀ as : List α, ¬ listLt as as
  | [] => id
  | a :: as => fun h => h.elim (irrefl a) fun h => listLt_irrefl as h.2

theorem listLt_trans [StrictTotal α] :
    ∀ {as bs cs : List α}, listLt as bs → listLt bs cs → listLt as cs
  | _, _, [] => fun _ h => by simp [listLt] at h
  | _, [], _ :: _ => fun h _ => by simp [listLt] at h
  | [], _ :: _, _ :: _ => fun _ _ => trivial
  | a :: as, b :: bs, c :: cs => by
    rintro (h | ⟨h, h₂⟩) (h' | ⟨h', h₂'⟩)
    · exact .inl (trans h h')
    · by_cases e : b = c
      · exact .inl (e ▸ h)
      · exact .inl (trans h (lt_of_not_lt_of_ne h' e))
    · by_cases e : a = b
      · exact .inl (e ▸ h')
      · exact .inl (trans (lt_of_not_lt_of_ne h e) h')
    · refine .inr ⟨fun hca => ?_, listLt_trans h₂ h₂'⟩
      by_cases e : b = c
      · exact h (e ▸ hca)
      · exact h (trans (lt_of_not_lt_of_ne h' e) hca)

theorem eq_of_not_listLt [StrictTotal α] :
    ∀ {as bs : List α}, ¬ listLt as bs → ¬ listLt bs as → as = bs
  | [], [] => fun _ _ => rfl
  | _ :: _, [] => fun _ h => absurd trivial h
  | [], _ :: _ => fun h _ => absurd trivial h
  | a :: as, b :: bs => by
    intro h h'
    simp only [listLt, not_or, not_and] at h h'
    have e : a = b := eq_of_not_lt h.1 h'.1
    subst e
    exact congrArg _ (eq_of_not_listLt (h.2 (irrefl a)) (h'.2 (irrefl a)))

instance instList [StrictTotal α] : StrictTotal (List α) where
  lt := listLt
  decideLt := decideListLt
  irrefl := listLt_irrefl
  trans := listLt_trans
  eq_of_not_lt := eq_of_not_listLt

/-- Characters by code point. -/
instance instChar : StrictTotal Char :=
  comap Char.toNat fun _ _ h => Char.toNat_inj.1 h

@[simp] theorem lt_char_iff {a b : Char} : lt a b ↔ a.toNat < b.toNat := Iff.rfl

/-- Strings by their characters, which is also the order of their UTF-8 bytes. -/
instance instString : StrictTotal String where
  lt a b := a < b
  decideLt _ _ := inferInstance
  irrefl := String.lt_irrefl
  trans := String.lt_trans
  eq_of_not_lt h h' := String.le_antisymm (String.not_lt.1 h') (String.not_lt.1 h)

end StrictTotal

end PatternAutomata
