import Mathlib.Data.List.Pairwise
import PatternAutomata.Order.Sort
import PatternAutomata.Span

/-!
# Separate spans

Spans are *separate* when each holds a character and each ends before the next one begins.  A list
of separate spans writes down a partial function (`find?_eq_some_iff`), which merging keeps:

    Separate l → Separate (merge l)                        (Separate.merge)
    Separate l → find? (merge l) c = find? l c             (find?_merge)

Sorting makes a list separate when no two of its spans share a character (`separate_sort`).
-/

namespace PatternAutomata

open StrictTotal

/-! ## Sorting what lies apart -/

section Sorting

variable {α : Type} [StrictTotal α]

/-- In the order of the beginnings, what lies apart lies one behind the other. -/
theorem pairwise_sort_iff (lo hi : α → Nat) (hlt : ∀ x y, lo x < lo y → lt x y) {l : List α}
    (hle : ∀ x ∈ l, lo x ≤ hi x) :
    (sort l).Pairwise (fun x y => hi x < lo y) ↔
      l.Pairwise fun x y => hi x < lo y ∨ hi y < lo x := by
  have hperm : (sort l).Pairwise (fun x y => hi x < lo y ∨ hi y < lo x) ↔
      l.Pairwise fun x y => hi x < lo y ∨ hi y < lo x :=
    (sort_perm l).pairwise_iff fun h => h.symm
  rw [← hperm]
  constructor
  · exact fun h => h.imp fun h => .inl h
  · intro h
    refine (h.and (pairwise_sort l)).imp_of_mem ?_
    rintro x y hx hy ⟨h | h, hxy⟩
    · exact h
    · have := hle y (mem_sort.1 hy)
      exact absurd (hlt y x (by omega)) hxy

end Sorting

namespace Scalar

/-- No character lies between neighbours. -/
theorem lt_iff_of_next? {c d e : Char} (h : next? c = some d) :
    c.toNat < e.toNat ↔ d.toNat ≤ e.toNat := by
  have := next?_eq_some_iff.1 h
  rw [← ordinal_lt_iff, ← ordinal_le_iff]
  omega

theorem lt_iff_of_prev? {c d e : Char} (h : prev? d = some c) :
    e.toNat < d.toNat ↔ e.toNat ≤ c.toNat := by
  have := prev?_eq_some_iff.1 h
  rw [← ordinal_lt_iff, ← ordinal_le_iff]
  omega

end Scalar

namespace Span

variable {α β : Type}

theorem covers_iff {s : Span α} {c : Char} :
    s.covers c = true ↔ s.lo.toNat ≤ c.toNat ∧ c.toNat ≤ s.hi.toNat := by
  simp [covers]

@[simp] theorem admits_label (s : Span α) (c : Char) : s.label.admits c = s.covers c := by
  rw [Bool.eq_iff_iff, Label.admits_iff, covers_iff, label, Label.bounds?_spanning]
  constructor
  · rintro ⟨_, _, ⟨⟩, h⟩
    exact h
  · exact fun h => ⟨_, _, rfl, h⟩

/-- A label with its target tells the span. -/
theorem injective_label_target : Function.Injective fun s : Span α => (s.label, s.target) := by
  rintro ⟨lo, hi, x⟩ ⟨lo', hi', y⟩ h
  obtain ⟨hlabel, rfl⟩ := Prod.mk.inj h
  have hbounds := congrArg Label.bounds? hlabel
  rw [label, label, Label.bounds?_spanning, Label.bounds?_spanning] at hbounds
  cases hbounds
  rfl

theorem label_eq_symbol_iff (s : Span α) : s.label = .symbol s.lo ↔ s.lo = s.hi := by
  unfold label Label.spanning
  split <;> simp_all

/-- Each span holds a character, and ends before the next one begins. -/
structure Separate (l : List (Span α)) : Prop where
  lo_le_hi : ∀ s ∈ l, s.lo.toNat ≤ s.hi.toNat
  pairwise : l.Pairwise fun s t => s.hi.toNat < t.lo.toNat

namespace Separate

theorem nil : Separate ([] : List (Span α)) := ⟨by simp, .nil⟩

theorem tail {s : Span α} {l : List (Span α)} (h : Separate (s :: l)) : Separate l :=
  ⟨fun t ht => h.lo_le_hi t (List.mem_cons_of_mem _ ht), h.pairwise.of_cons⟩

theorem cons {s : Span α} {l : List (Span α)} (hs : s.lo.toNat ≤ s.hi.toNat)
    (hl : ∀ t ∈ l, s.hi.toNat < t.lo.toNat) (h : Separate l) : Separate (s :: l) :=
  ⟨by simpa using ⟨hs, h.lo_le_hi⟩, h.pairwise.cons hl⟩

theorem map {l : List (Span α)} (h : Separate l) (f : Span α → Span β)
    (hlo : ∀ s, (f s).lo = s.lo) (hhi : ∀ s, (f s).hi = s.hi) : Separate (l.map f) := by
  refine ⟨?_, List.pairwise_map.2 (by simpa only [hlo, hhi] using h.pairwise)⟩
  rintro _ ht
  obtain ⟨s, hs, rfl⟩ := List.mem_map.1 ht
  rw [hlo, hhi]
  exact h.lo_le_hi s hs

/-- Separate spans ascend in the order of their first characters. -/
theorem pairwise_lt [StrictTotal α] {l : List (Span α)} (h : Separate l) : l.Pairwise lt := by
  refine h.pairwise.imp_of_mem fun {s t} hs _ hst => ?_
  have hlt : s.lo.toNat < t.lo.toNat := Nat.lt_of_le_of_lt (h.lo_le_hi s hs) hst
  exact lt_prod_iff.2 (.inl hlt)

/-- No character is in two spans. -/
theorem eq_of_covers {l : List (Span α)} (h : Separate l) {s t : Span α} (hs : s ∈ l) (ht : t ∈ l)
    {c : Char} (hsc : s.covers c = true) (htc : t.covers c = true) : s = t := by
  rw [covers_iff] at hsc htc
  by_contra hne
  have hor : l.Pairwise fun s t => s.hi.toNat < t.lo.toNat ∨ t.hi.toNat < s.lo.toNat :=
    h.pairwise.imp .inl
  have : Std.Symm fun s t : Span α => s.hi.toNat < t.lo.toNat ∨ t.hi.toNat < s.lo.toNat :=
    ⟨fun _ _ => Or.symm⟩
  have := hor.forall hs ht hne
  omega

end Separate

/-- Separate spans write down a partial function. -/
theorem find?_eq_some_iff {l : List (Span α)} (h : Separate l) {c : Char} {x : α} :
    find? l c = some x ↔ ∃ s ∈ l, s.covers c = true ∧ s.target = x := by
  unfold find?
  rw [Option.map_eq_some_iff]
  constructor
  · rintro ⟨s, hs, rfl⟩
    have hc := List.find?_some hs
    exact ⟨s, List.mem_of_find?_eq_some hs, hc, rfl⟩
  · rintro ⟨s, hs, hc, rfl⟩
    cases hf : l.find? fun s => s.covers c with
    | none => exact absurd hc (List.find?_eq_none.1 hf s hs)
    | some t =>
      have ht := List.find?_some hf
      exact ⟨t, rfl, by rw [h.eq_of_covers (List.mem_of_find?_eq_some hf) hs ht hc]⟩

theorem separate_sort [StrictTotal α] {l : List (Span α)}
    (hle : ∀ s ∈ l, s.lo.toNat ≤ s.hi.toNat)
    (h : l.Pairwise fun s t => s.hi.toNat < t.lo.toNat ∨ t.hi.toNat < s.lo.toNat) :
    Separate (sort l) := by
  refine ⟨fun s hs => hle s (mem_sort.1 hs), ?_⟩
  refine (pairwise_sort_iff (fun s : Span α => s.lo.toNat) (fun s => s.hi.toNat)
    (fun s t hst => ?_) hle).2 h
  exact lt_prod_iff.2 (.inl hst)

/-! ## Merging -/

/-- A span and one that continues it cover what the joined span covers. -/
theorem covers_joined {s t : Span α} (hn : Scalar.next? s.hi = some t.lo)
    (hs : s.lo.toNat ≤ s.hi.toNat) (ht : t.lo.toNat ≤ t.hi.toNat) (x : α) (c : Char) :
    (⟨s.lo, t.hi, x⟩ : Span α).covers c = true ↔ s.covers c = true ∨ t.covers c = true := by
  have hc := @Scalar.lt_iff_of_next? _ _ c hn
  have hh := @Scalar.lt_iff_of_next? _ _ t.hi hn
  rw [covers_iff, covers_iff, covers_iff]
  dsimp only
  omega

theorem separate_joined {s t : Span α} {l : List (Span α)} (h : Separate (s :: t :: l)) (x : α) :
    Separate (⟨s.lo, t.hi, x⟩ :: l) := by
  have hs := h.lo_le_hi s (by simp)
  have ht := h.lo_le_hi t (by simp)
  have hst := (List.pairwise_cons.1 h.pairwise).1 t (by simp)
  exact .cons (by dsimp only; omega) (List.pairwise_cons.1 h.tail.pairwise).1 h.tail.tail

section Merge

variable [DecidableEq α]

theorem continuedBy_iff {s t : Span α} :
    s.continuedBy t = true ↔ s.target = t.target ∧ Scalar.next? s.hi = some t.lo := by
  simp [continuedBy]

theorem exists_mem_mergeFrom {p : Span α} {l : List (Span α)} (h : Separate (p :: l)) {c : Char}
    {x : α} :
    (∃ s ∈ mergeFrom p l, s.covers c = true ∧ s.target = x) ↔
      ∃ s ∈ p :: l, s.covers c = true ∧ s.target = x := by
  induction l generalizing p with
  | nil => rfl
  | cons t l ih =>
    unfold mergeFrom
    split
    · next hc =>
      obtain ⟨e, hn⟩ := continuedBy_iff.1 hc
      rw [ih (separate_joined h _)]
      have := covers_joined hn (h.lo_le_hi p (by simp)) (h.lo_le_hi t (by simp)) p.target c
      simp only [List.mem_cons, or_and_right, exists_or, exists_eq_left, this, ← e, or_assoc]
    · have := ih h.tail
      simp only [List.mem_cons, or_and_right, exists_or, exists_eq_left] at this ⊢
      rw [this]

/-- Merged spans begin where spans begin. -/
theorem lo_mem_mergeFrom {p : Span α} {l : List (Span α)} {t : Span α} (h : t ∈ mergeFrom p l) :
    ∃ s ∈ p :: l, t.lo = s.lo := by
  induction l generalizing p with
  | nil => exact ⟨t, h, rfl⟩
  | cons u l ih =>
    unfold mergeFrom at h
    split at h
    · obtain ⟨s, hs, e⟩ := ih h
      rcases List.mem_cons.1 hs with rfl | hs
      · exact ⟨p, by simp, e⟩
      · exact ⟨s, by simp [hs], e⟩
    · rcases List.mem_cons.1 h with rfl | h
      · exact ⟨t, by simp, rfl⟩
      · obtain ⟨s, hs, e⟩ := ih h
        exact ⟨s, List.mem_cons_of_mem _ hs, e⟩

theorem Separate.mergeFrom {p : Span α} {l : List (Span α)} (h : Separate (p :: l)) :
    Separate (mergeFrom p l) := by
  induction l generalizing p with
  | nil => exact h
  | cons t l ih =>
    unfold Span.mergeFrom
    split
    · exact ih (separate_joined h _)
    · refine .cons (h.lo_le_hi p (by simp)) (fun u hu => ?_) (ih h.tail)
      obtain ⟨s, hs, e⟩ := lo_mem_mergeFrom hu
      rw [e]
      exact (List.pairwise_cons.1 h.pairwise).1 s hs

theorem Separate.merge {l : List (Span α)} (h : Separate l) : Separate (merge l) := by
  cases l with
  | nil => exact .nil
  | cons s l => exact h.mergeFrom

theorem exists_mem_merge {l : List (Span α)} (h : Separate l) {c : Char} {x : α} :
    (∃ s ∈ merge l, s.covers c = true ∧ s.target = x) ↔
      ∃ s ∈ l, s.covers c = true ∧ s.target = x := by
  cases l with
  | nil => rfl
  | cons s l => exact exists_mem_mergeFrom h

theorem find?_merge {l : List (Span α)} (h : Separate l) (c : Char) :
    find? (merge l) c = find? l c := by
  apply Option.ext
  intro x
  rw [find?_eq_some_iff h.merge, find?_eq_some_iff h, exists_mem_merge h]

end Merge

/-! ## Merging where spans may run downwards -/

/-- The spans come in the order of their beginnings. -/
def Ascending (l : List (Span α)) : Prop := l.Pairwise fun s t => s.lo.toNat ≤ t.lo.toNat

theorem ascending_sort [StrictTotal α] (l : List (Span α)) : Ascending (sort l) := by
  refine (pairwise_sort l).imp fun {s t} hts => Nat.le_of_not_lt fun hlt => hts ?_
  exact lt_prod_iff.2 (.inl hlt)

variable [DecidableEq α]

/-- A span of merged spans ends with one that it was merged from and begins before it. -/
theorem Ascending.exists_of_mem_mergeFrom {p t : Span α} {l : List (Span α)}
    (h : Ascending (p :: l)) (ht : t ∈ mergeFrom p l) :
    ∃ s ∈ p :: l, t.lo.toNat ≤ s.lo.toNat ∧ t.hi = s.hi ∧ t.target = s.target := by
  induction l generalizing p with
  | nil => exact ⟨t, ht, Nat.le_refl _, rfl, rfl⟩
  | cons u l ih =>
    obtain ⟨hp, hl⟩ := List.pairwise_cons.1 h
    obtain ⟨hpu, hp⟩ := List.forall_mem_cons.1 hp
    unfold mergeFrom at ht
    split at ht
    · next hc =>
      have hjoined : Ascending (⟨p.lo, u.hi, p.target⟩ :: l) := List.pairwise_cons.2 ⟨hp, hl.of_cons⟩
      obtain ⟨s, hs, hlo, hhi, htarget⟩ := ih hjoined ht
      rcases List.mem_cons.1 hs with rfl | hs
      · exact ⟨u, by simp, Nat.le_trans hlo hpu, hhi, htarget.trans (continuedBy_iff.1 hc).1⟩
      · exact ⟨s, by simp [hs], hlo, hhi, htarget⟩
    · rcases List.mem_cons.1 ht with rfl | ht
      · exact ⟨t, by simp, Nat.le_refl _, rfl, rfl⟩
      · obtain ⟨s, hs, hends⟩ := ih hl ht
        exact ⟨s, List.mem_cons_of_mem p hs, hends⟩

theorem Ascending.exists_of_mem_merge {t : Span α} {l : List (Span α)} (h : Ascending l)
    (ht : t ∈ merge l) :
    ∃ s ∈ l, t.lo.toNat ≤ s.lo.toNat ∧ t.hi = s.hi ∧ t.target = s.target := by
  cases l with
  | nil => cases ht
  | cons p l => exact h.exists_of_mem_mergeFrom ht

/-- Merging loses no target. -/
theorem exists_target_mem_mergeFrom {p s : Span α} {l : List (Span α)} (hs : s ∈ p :: l) :
    ∃ t ∈ mergeFrom p l, t.target = s.target := by
  induction l generalizing p s with
  | nil => exact ⟨s, hs, rfl⟩
  | cons u l ih =>
    unfold mergeFrom
    split
    · next hc =>
      obtain ⟨htarget, -⟩ := continuedBy_iff.1 hc
      have hjoined := ih (s := ⟨p.lo, u.hi, p.target⟩) List.mem_cons_self
      rcases List.mem_cons.1 hs with rfl | hs
      · exact hjoined
      · rcases List.mem_cons.1 hs with rfl | hs
        · rwa [← htarget]
        · exact ih (List.mem_cons_of_mem _ hs)
    · rcases List.mem_cons.1 hs with rfl | hs
      · exact ⟨s, List.mem_cons_self, rfl⟩
      · obtain ⟨t, ht, htarget⟩ := ih hs
        exact ⟨t, List.mem_cons_of_mem p ht, htarget⟩

theorem exists_target_mem_merge {s : Span α} {l : List (Span α)} (hs : s ∈ l) :
    ∃ t ∈ merge l, t.target = s.target := by
  cases l with
  | nil => cases hs
  | cons p l => exact exists_target_mem_mergeFrom hs

end Span

end PatternAutomata
