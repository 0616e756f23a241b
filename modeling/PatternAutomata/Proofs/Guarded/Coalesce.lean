import PatternAutomata.Proofs.Determinism
import PatternAutomata.Proofs.Guarded.Determinize
import PatternAutomata.Proofs.Merge

/-!
# Coalesced labels are the normal form of a partial function

The spans that are coalesced ascend without overlap and write down a partial function from characters
to targets.  The labels write down the same function, each of them with as many characters as it can
have, and nothing but the function decides which labels they are:

    Separate l → ∃ labels, coalesce l = .ok labels ∧ Label.NormalForm (find? l) labels ∧
      ∀ m, Separate m → (coalesce m = .ok labels ↔ ∀ c, find? m c = find? l c)      (coalesce_spec)

Labels touch when a character of one and a later one of the other have no character between them, so
the last character before the surrogates touches the first one behind them.
-/

namespace PatternAutomata

open Relator

variable {α : Type}

/-! ## Touching -/

namespace Scalar

/-- `d` comes after `c`, and no character comes between them. -/
def Adjacent (c d : Char) : Prop :=
  c.toNat < d.toNat ∧ ∀ e : Char, ¬(c.toNat < e.toNat ∧ e.toNat < d.toNat)

theorem adjacent_iff {c d : Char} : Adjacent c d ↔ next? c = some d := by
  constructor
  · rintro ⟨hcd, hnone⟩
    obtain ⟨e, he⟩ : ∃ e, next? c = some e := by
      apply Option.ne_none_iff_exists'.1
      intro hlast
      have hle := ordinal_le_iff.1 (ordinal_le_last d)
      rw [← next?_eq_none_iff.1 hlast] at hle
      omega
    have hce := (lt_iff_of_next? (e := e) he).2 (Nat.le_refl _)
    have hed := (lt_iff_of_next? (e := d) he).1 hcd
    have hde : e = d := by
      by_contra hne
      have hlt := Nat.lt_of_le_of_ne hed fun h => hne (Char.toNat_inj.1 h)
      exact hnone e ⟨hce, hlt⟩
    rw [he, hde]
  · intro h
    refine ⟨(lt_iff_of_next? h).2 (Nat.le_refl _), fun e => ?_⟩
    rw [lt_iff_of_next? h]
    omega

example : next? '\uD7FF' = some '\uE000' := by decide

end Scalar

/-- A character of `l` and a later one of `m` have no character between them. -/
def Label.Touches (l m : Label) : Prop :=
  ∃ c d, l.admits c = true ∧ m.admits d = true ∧ Scalar.Adjacent c d

/-! ## The normal form -/

/-- The labels of a partial function from characters to targets, ascending and as wide as they can be. -/
structure Label.NormalForm (f : Char → Option α) (labels : List (Label × α)) : Prop where
  gives : ∀ c x, (∃ m ∈ labels, m.1.admits c = true ∧ m.2 = x) ↔ f c = some x
  proper : ∀ m ∈ labels, m.1.Proper
  ascending : labels.Pairwise fun m n =>
    ∀ c d, m.1.admits c = true → n.1.admits d = true → c.toNat < d.toNat
  apart : labels.Pairwise fun m n => m.2 = n.2 → ¬m.1.Touches n.1

namespace Span

theorem Alike.eq {s t : Span α} (h : Alike Eq s t) : s = t := by
  obtain ⟨lo, hi, target⟩ := s
  obtain ⟨rfl, rfl, rfl⟩ := h
  rfl

/-- Merged spans of one function are the same spans. -/
theorem Merged.eq_of_find?_eq [DecidableEq α] {l m : List (Span α)} (hl : Merged l) (hm : Merged m)
    (h : ∀ c, find? l c = find? m c) : l = m := by
  have hR : BiUnique (Eq : α → α → Prop) :=
    ⟨fun _ _ _ hac hbc => hac.trans hbc.symm, fun _ _ _ hab hac => hab.symm.trans hac⟩
  have hlm : Within Eq l m := fun c x hx => ⟨x, (h c).symm.trans hx, rfl⟩
  have hml : Within (flip Eq) m l := fun c x hx => ⟨x, (h c).trans hx, rfl⟩
  have heq : List.Forall₂ Eq l m := (forall₂_alike hR hl hm hlm hml).imp fun _ _ => Alike.eq
  rwa [List.forall₂_eq_eq_eq] at heq

/-- Merging forgets how a function was cut. -/
theorem merge_eq_merge_iff [DecidableEq α] {l m : List (Span α)} (hl : Separate l) (hm : Separate m) :
    merge l = merge m ↔ ∀ c, find? l c = find? m c := by
  constructor
  · intro h c
    rw [← find?_merge hl, ← find?_merge hm, h]
  · intro h
    refine hl.merged_merge.eq_of_find?_eq hm.merged_merge fun c => ?_
    rw [find?_merge hl, find?_merge hm, h]

/-- The labels of merged spans are the normal form of what the spans write down. -/
theorem Merged.normalForm [DecidableEq α] {l : List (Span α)} (h : Merged l) :
    Label.NormalForm (find? l) (l.map fun s => (s.label, s.target)) where
  gives c x := by
    rw [find?_eq_some_iff h.toSeparate]
    simp
  proper m hm := by
    obtain ⟨s, hs, rfl⟩ := List.mem_map.1 hm
    exact proper_label_iff.2 (h.lo_le_hi s hs)
  ascending := by
    refine List.pairwise_map.2 (h.pairwise.imp fun {s t} hst c d hc hd => ?_)
    rw [admits_label, covers_iff] at hc hd
    omega
  apart := by
    refine List.pairwise_map.2 ((h.pairwise.and h.apart).imp ?_)
    rintro s t ⟨hst, happart⟩ htarget ⟨c, d, hc, hd, hcd⟩
    rw [admits_label, covers_iff] at hc hd
    -- Nothing lies between `c` and `d`, so they are the last of `s` and the first of `t`.
    have hhi := hcd.2 s.hi
    have hlo := hcd.2 t.lo
    have hce : c = s.hi := Char.toNat_inj.1 (by omega)
    have hde : d = t.lo := Char.toNat_inj.1 (by omega)
    rw [hce, hde, Scalar.adjacent_iff] at hcd
    rw [continuedBy_iff.2 ⟨htarget, hcd⟩] at happart
    cases happart

end Span

/-! ## Coalescing -/

namespace Guarded

open PatternAutomata.Span

variable {ε : Type} [DecidableEq α] {l m : List (Span α)}

/-- Two lists of spans get the same labels when they write down the same function. -/
theorem coalesce_eq_coalesce_iff (hl : Separate l) (hm : Separate m) :
    coalesce (ε := ε) m = coalesce l ↔ ∀ c, find? m c = find? l c := by
  rw [coalesce_eq hm, coalesce_eq hl, ← merge_eq_merge_iff hm hl, Except.ok.injEq,
    injective_label_target.list_map.eq_iff]

/-- The labels of separate spans are the merged spans, and the normal form of the function that the spans
write down. -/
theorem coalesce_spec (h : Separate l) :
    ∃ labels, coalesce (ε := ε) l = .ok labels ∧
      labels = (merge l).map (fun m => (m.label, m.target)) ∧ Label.NormalForm (find? l) labels ∧
      ∀ m, Separate m → (coalesce (ε := ε) m = .ok labels ↔ ∀ c, find? m c = find? l c) := by
  refine ⟨_, coalesce_eq h, rfl, ?_, fun m hm => ?_⟩
  · have hnormal := h.merged_merge.normalForm
    rwa [funext (find?_merge h)] at hnormal
  · rw [← coalesce_eq h]
    exact coalesce_eq_coalesce_iff h hm

/-- Two cuts of one function on both sides of the surrogates get one list of labels. -/
theorem coalesce_spec_cuts :
    let l : List (Span Nat) :=
      [⟨'a', 'b', 1⟩, ⟨'c', 'c', 1⟩, ⟨'e', '\uD7FF', 1⟩, ⟨'\uE000', '\uE001', 1⟩]
    let m : List (Span Nat) := [⟨'a', 'c', 1⟩, ⟨'e', 'e', 1⟩, ⟨'f', '\uE001', 1⟩]
    let labels := [(Label.range 'a' 'c', 1), (Label.range 'e' '\uE001', 1)]
    Separate l ∧ Separate m ∧ coalesce (ε := Empty) l = .ok labels ∧
      Label.NormalForm (find? l) labels ∧ ∀ c, find? m c = find? l c := by
  intro l m labels
  have hl : Separate l := ⟨by decide, by decide⟩
  have hm : Separate m := ⟨by decide, by decide⟩
  have heq : coalesce (ε := Empty) l = .ok labels := by rfl
  obtain ⟨labels', heq', -, hnormal, hunique⟩ := coalesce_spec (ε := Empty) hl
  obtain rfl : labels = labels' := Except.ok.inj (heq.symm.trans heq')
  exact ⟨hl, hm, heq, hnormal, (hunique m hm).1 rfl⟩

end Guarded

end PatternAutomata
