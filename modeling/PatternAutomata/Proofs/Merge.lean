import Mathlib.Data.List.Forall2
import PatternAutomata.Proofs.Span

/-!
# Merged spans are one way to write a partial function

Separate spans are *merged* when none continues another.  Merging makes them so
(`Separate.merged_merge`), and merged spans have no choice left in where they begin and end: two
lists that give each character related targets consist of the same spans, one for one:

    BiUnique R → Merged l → Merged m → Within R l m → Within (flip R) m l
      → List.Forall₂ (Alike R) l m                                          (forall₂_alike)

The comparison is up to a relation `R` of targets, as two partitions number their blocks differently.
-/

namespace PatternAutomata.Span

open Relator

variable {α β : Type}

/-! ## Looking up in a list -/

theorem find?_cons_of_covers {s : Span α} {l : List (Span α)} {c : Char} (h : s.covers c = true) :
    find? (s :: l) c = some s.target := by
  unfold find?
  rw [List.find?_cons, h]
  rfl

theorem find?_cons_of_lt {s : Span α} {l : List (Span α)} {c : Char} (h : s.hi.toNat < c.toNat) :
    find? (s :: l) c = find? l c := by
  unfold find?
  rw [List.find?_cons_of_neg]
  rw [covers_iff]
  omega

/-- Before the first span there is no target. -/
theorem lo_le_of_find? {s : Span α} {l : List (Span α)} (h : Separate (s :: l)) {c : Char} {x : α}
    (hc : find? (s :: l) c = some x) : s.lo.toNat ≤ c.toNat := by
  obtain ⟨t, ht, hcov, -⟩ := (find?_eq_some_iff h).1 hc
  have hle := (covers_iff.1 hcov).1
  rcases List.mem_cons.1 ht with rfl | ht
  · exact hle
  · have hst := (List.pairwise_cons.1 h.pairwise).1 t ht
    have hs := h.lo_le_hi s List.mem_cons_self
    omega

/-- Behind the first span the others begin. -/
theorem lt_of_find?_tail {s : Span α} {l : List (Span α)} (h : Separate (s :: l)) {c : Char} {x : α}
    (hc : find? l c = some x) : s.hi.toNat < c.toNat := by
  obtain ⟨t, ht, hcov, -⟩ := (find?_eq_some_iff h.tail).1 hc
  have hst := (List.pairwise_cons.1 h.pairwise).1 t ht
  have hle := (covers_iff.1 hcov).1
  omega

theorem Separate.find?_lo {s : Span α} {l : List (Span α)} (h : Separate (s :: l)) :
    find? (s :: l) s.lo = some s.target :=
  find?_cons_of_covers (covers_iff.2 ⟨Nat.le_refl _, h.lo_le_hi s List.mem_cons_self⟩)

/-! ## Merged spans -/

/-- Separate spans none of which continues another. -/
structure Merged [DecidableEq α] (l : List (Span α)) : Prop extends Separate l where
  apart : l.Pairwise fun s t => s.continuedBy t = false

theorem Merged.tail [DecidableEq α] {s : Span α} {l : List (Span α)} (h : Merged (s :: l)) :
    Merged l := ⟨h.toSeparate.tail, h.apart.of_cons⟩

theorem Separate.merged_mergeFrom [DecidableEq α] {p : Span α} {l : List (Span α)}
    (h : Separate (p :: l)) : Merged (Span.mergeFrom p l) := by
  refine ⟨h.mergeFrom, ?_⟩
  induction l generalizing p with
  | nil => exact List.pairwise_singleton _ _
  | cons t l ih =>
    unfold Span.mergeFrom
    split
    · exact ih (separate_joined h _)
    · next hpt =>
      refine (ih h.tail).cons fun u hu => ?_
      rw [← Bool.not_eq_true]
      intro hpu
      obtain ⟨htarget, hnext⟩ := continuedBy_iff.1 hpu
      -- The span that had the first character of `u` begins there as well, and so it is `t`.
      have hule := h.tail.mergeFrom.lo_le_hi u hu
      obtain ⟨v, hv, hcov, hvu⟩ := (exists_mem_mergeFrom h.tail).1
        ⟨u, hu, covers_iff.2 ⟨Nat.le_refl _, hule⟩, rfl⟩
      have hpv := (List.pairwise_cons.1 h.pairwise).1 v hv
      have huv : v.lo = u.lo := by
        have hge := (Scalar.lt_iff_of_next? hnext).1 hpv
        exact Char.toNat_inj.1 (Nat.le_antisymm (covers_iff.1 hcov).1 hge)
      rcases List.mem_cons.1 hv with rfl | hv
      · exact hpt (continuedBy_iff.2 ⟨htarget.trans hvu.symm, huv ▸ hnext⟩)
      · have htv := (List.pairwise_cons.1 h.tail.pairwise).1 v hv
        have ht := h.lo_le_hi t (by simp)
        have hpt' := (List.pairwise_cons.1 h.pairwise).1 t (by simp)
        have hge := (Scalar.lt_iff_of_next? hnext).1 hpt'
        rw [huv] at htv
        omega

theorem Separate.merged_merge [DecidableEq α] {l : List (Span α)} (h : Separate l) :
    Merged (Span.merge l) := by
  cases l with
  | nil => exact ⟨.nil, .nil⟩
  | cons s l => exact h.merged_mergeFrom

/-- Of merged spans with one target, none begins right behind another. -/
theorem Merged.next?_ne [DecidableEq α] {l : List (Span α)} (h : Merged l) {s t : Span α} (hs : s ∈ l)
    (ht : t ∈ l) (htarget : s.target = t.target) : Scalar.next? s.hi ≠ some t.lo := by
  intro hnext
  have hlt := (Scalar.lt_iff_of_next? hnext).2 (Nat.le_refl _)
  have hle := h.lo_le_hi t ht
  have hle' := h.lo_le_hi s hs
  by_cases hst : s = t
  · subst hst
    omega
  · have hor : l.Pairwise fun s t =>
        (s.hi.toNat < t.lo.toNat ∧ s.continuedBy t = false) ∨
          (t.hi.toNat < s.lo.toNat ∧ t.continuedBy s = false) := (h.pairwise.and h.apart).imp .inl
    have : Std.Symm fun s t : Span α => (s.hi.toNat < t.lo.toNat ∧ s.continuedBy t = false) ∨
        (t.hi.toNat < s.lo.toNat ∧ t.continuedBy s = false) := ⟨fun _ _ => Or.symm⟩
    rcases hor.forall hs ht hst with ⟨-, hcont⟩ | ⟨hlt', -⟩
    · rw [continuedBy_iff.2 ⟨htarget, hnext⟩] at hcont
      cases hcont
    · omega

/-! ## One representation -/

/-- The same characters with related targets. -/
structure Alike (R : α → β → Prop) (s : Span α) (t : Span β) : Prop where
  lo : s.lo = t.lo
  hi : s.hi = t.hi
  target : R s.target t.target

/-- Where the first list has a target, the second has a related one. -/
def Within (R : α → β → Prop) (l : List (Span α)) (m : List (Span β)) : Prop :=
  ∀ c x, find? l c = some x → ∃ y, find? m c = some y ∧ R x y

variable {R : α → β → Prop} {s : Span α} {l : List (Span α)} {t : Span β} {m : List (Span β)}

theorem Within.lo_le (hl : Separate (s :: l)) (hm : Separate (t :: m))
    (h : Within R (s :: l) (t :: m)) : t.lo.toNat ≤ s.lo.toNat := by
  obtain ⟨y, hy, -⟩ := h s.lo s.target hl.find?_lo
  exact lo_le_of_find? hm hy

/-- A span that ended too early would be continued by the next one. -/
theorem Within.hi_le [DecidableEq α] (hR : LeftUnique R) (hl : Merged (s :: l))
    (hlo : s.lo = t.lo) (hst : R s.target t.target) (h : Within (flip R) (t :: m) (s :: l)) :
    t.hi.toNat ≤ s.hi.toNat := by
  by_contra hlt
  have hs := hl.lo_le_hi s List.mem_cons_self
  obtain ⟨d, hd⟩ : ∃ d, Scalar.next? s.hi = some d := by
    apply Option.ne_none_iff_exists'.1
    intro hlast
    have := Scalar.ordinal_le_iff.1 (Scalar.ordinal_le_last t.hi)
    rw [← Scalar.next?_eq_none_iff.1 hlast] at this
    exact hlt this
  have hsd := (Scalar.lt_iff_of_next? (e := d) hd).2 (Nat.le_refl _)
  have hdt := (Scalar.lt_iff_of_next? (e := t.hi) hd).1 (Nat.lt_of_not_le hlt)
  have hfind : find? (t :: m) d = some t.target := by
    refine find?_cons_of_covers (covers_iff.2 ⟨?_, hdt⟩)
    rw [← hlo]
    omega
  obtain ⟨x, hx, hxt⟩ := h d t.target hfind
  have hxs : x = s.target := hR hxt hst
  rw [find?_cons_of_lt hsd] at hx
  obtain ⟨u, hu, hcov, hux⟩ := (find?_eq_some_iff hl.toSeparate.tail).1 hx
  have hsu := (List.pairwise_cons.1 hl.pairwise).1 u hu
  have hdu : d = u.lo :=
    Char.toNat_inj.1 (Nat.le_antisymm ((Scalar.lt_iff_of_next? hd).1 hsu) (covers_iff.1 hcov).1)
  have hcont : s.continuedBy u = true := continuedBy_iff.2 ⟨hxs.symm.trans hux.symm, hdu ▸ hd⟩
  rw [(List.pairwise_cons.1 hl.apart).1 u hu] at hcont
  cases hcont

/-- Behind a first span that both lists share, the rest is compared. -/
theorem Within.tail (hl : Separate (s :: l)) (hhi : s.hi = t.hi) (h : Within R (s :: l) (t :: m)) :
    Within R l m := by
  intro c x hx
  have hc := lt_of_find?_tail hl hx
  obtain ⟨y, hy, hxy⟩ := h c x (by rwa [find?_cons_of_lt hc])
  rw [find?_cons_of_lt (hhi ▸ hc)] at hy
  exact ⟨y, hy, hxy⟩

/-- Merged spans that give each character related targets are the same spans. -/
theorem forall₂_alike [DecidableEq α] [DecidableEq β] (hR : BiUnique R) (hl : Merged l)
    (hm : Merged m) (h : Within R l m) (h' : Within (flip R) m l) :
    List.Forall₂ (Alike R) l m := by
  have hflip : LeftUnique (flip R) := fun _ _ _ hac hbc => hR.2 hac hbc
  induction l generalizing m with
  | nil =>
    cases m with
    | nil => exact .nil
    | cons t m =>
      obtain ⟨x, hx, -⟩ := h' t.lo t.target hm.toSeparate.find?_lo
      cases hx
  | cons s l ih =>
    cases m with
    | nil =>
      obtain ⟨y, hy, -⟩ := h s.lo s.target hl.toSeparate.find?_lo
      cases hy
    | cons t m =>
      have hlo : s.lo = t.lo := by
        have hts := Within.lo_le hl.toSeparate hm.toSeparate h
        have hst := Within.lo_le hm.toSeparate hl.toSeparate h'
        exact Char.toNat_inj.1 (Nat.le_antisymm hst hts)
      have htarget : R s.target t.target := by
        obtain ⟨y, hy, hxy⟩ := h s.lo s.target hl.toSeparate.find?_lo
        rw [hlo, hm.toSeparate.find?_lo] at hy
        cases hy
        exact hxy
      have hhi : s.hi = t.hi := by
        have hts := Within.hi_le hR.1 hl hlo htarget h'
        have hst := Within.hi_le hflip hm hlo.symm htarget h
        exact Char.toNat_inj.1 (Nat.le_antisymm hst hts)
      refine .cons ⟨hlo, hhi, htarget⟩ (ih hl.tail hm.tail ?_ ?_)
      · exact Within.tail hl.toSeparate hhi h
      · exact Within.tail hm.toSeparate hhi.symm h'

end PatternAutomata.Span
