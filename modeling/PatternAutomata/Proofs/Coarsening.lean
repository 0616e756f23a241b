import PatternAutomata.Proofs.Merge
import PatternAutomata.Proofs.Minimize

/-!
# Signatures in larger blocks

A partition *refines* another one when each of its blocks lies in a block of the other.  The signatures
of a deterministic automaton in the larger blocks are then made from those in the smaller ones: the
blocks are renamed, and what touches now is merged (`merge_sort_blockSpans`).  Merging twice is merging
once,

    merge ((merge l).map (map f)) = merge (l.map (map f))                              (merge_map_merge)

so states with one signature in the smaller blocks have one signature in the larger ones, and a signature
without a downward label is not spoiled.  This holds whether or not labels run downwards.

Hence a partition whose blocks are uniform refines all that the refinement goes through:

    a.Stable p → p.Refines a.initialPartition                             (Stable.refines_initialPartition)
    a.Stable p → p.Refines q → p.Refines (a.splitBySignature q i)         (Stable.refines_splitBySignature)
-/

namespace PatternAutomata

open StrictTotal

/-! ## Merging again -/

namespace Span

variable {α β : Type} [DecidableEq α] [DecidableEq β]

theorem continuedBy_map (f : α → β) {s t : Span α} (h : s.continuedBy t = true) :
    (s.map f).continuedBy (t.map f) = true := by
  obtain ⟨htarget, hnext⟩ := continuedBy_iff.1 h
  exact continuedBy_iff.2 ⟨congrArg f htarget, hnext⟩

theorem mergeFrom_of_continuedBy {p s : Span α} (h : p.continuedBy s = true) (l : List (Span α)) :
    mergeFrom p (s :: l) = mergeFrom ⟨p.lo, s.hi, p.target⟩ l := if_pos h

theorem mergeFrom_of_not_continuedBy {p s : Span α} (h : ¬ p.continuedBy s = true)
    (l : List (Span α)) : mergeFrom p (s :: l) = p :: mergeFrom s l := if_neg h

/-- Behind a span that may still grow, what is merged already is merged as it was. -/
theorem mergeFrom_map_mergeFrom (f : α → β) (q : Span β) (p : Span α) (l : List (Span α)) :
    mergeFrom q ((mergeFrom p l).map (map f)) = mergeFrom q (p.map f :: l.map (map f)) := by
  induction l generalizing p q with
  | nil => rfl
  | cons s l ih =>
    rw [List.map_cons]
    by_cases hps : p.continuedBy s = true
    · have hps' := continuedBy_map f hps
      rw [mergeFrom_of_continuedBy hps, ih]
      by_cases hq : q.continuedBy (p.map f) = true
      · -- The joined span begins as `p` does, so `q` grows over both.
        have hjoined : q.continuedBy (map f ⟨p.lo, s.hi, p.target⟩) = true := hq
        have hq' : (⟨q.lo, p.hi, q.target⟩ : Span β).continuedBy (s.map f) = true :=
          continuedBy_iff.2 ⟨(continuedBy_iff.1 hq).1.trans (continuedBy_iff.1 hps').1,
            (continuedBy_iff.1 hps').2⟩
        rw [mergeFrom_of_continuedBy hjoined, mergeFrom_of_continuedBy hq]
        exact (mergeFrom_of_continuedBy hq' _).symm
      · have hjoined : ¬ q.continuedBy (map f ⟨p.lo, s.hi, p.target⟩) = true := hq
        rw [mergeFrom_of_not_continuedBy hjoined, mergeFrom_of_not_continuedBy hq,
          mergeFrom_of_continuedBy hps']
        rfl
    · rw [mergeFrom_of_not_continuedBy hps, List.map_cons]
      by_cases hq : q.continuedBy (p.map f) = true
      · rw [mergeFrom_of_continuedBy hq, mergeFrom_of_continuedBy hq, ih]
      · rw [mergeFrom_of_not_continuedBy hq, mergeFrom_of_not_continuedBy hq, ih]

theorem merge_map_merge (f : α → β) (l : List (Span α)) :
    merge ((merge l).map (map f)) = merge (l.map (map f)) := by
  cases l with
  | nil => rfl
  | cons p l =>
    show merge ((mergeFrom p l).map (map f)) = mergeFrom (p.map f) (l.map (map f))
    induction l generalizing p with
    | nil => rfl
    | cons s l ih =>
      by_cases hps : p.continuedBy s = true
      · rw [mergeFrom_of_continuedBy hps, ih]
        exact (mergeFrom_of_continuedBy (continuedBy_map f hps) _).symm
      · rw [mergeFrom_of_not_continuedBy hps]
        exact mergeFrom_map_mergeFrom f (p.map f) s l

omit [DecidableEq β] in
/-- Merged spans begin, in their order, where spans begin. -/
theorem map_lo_mergeFrom_sublist (p : Span α) (l : List (Span α)) :
    ((mergeFrom p l).map lo).Sublist ((p :: l).map lo) := by
  induction l generalizing p with
  | nil => exact .refl _
  | cons s l ih =>
    by_cases hps : p.continuedBy s = true
    · rw [mergeFrom_of_continuedBy hps]
      exact (ih _).trans ((List.sublist_cons_self s.lo _).cons_cons p.lo)
    · rw [mergeFrom_of_not_continuedBy hps]
      exact (ih s).cons_cons p.lo

omit [DecidableEq β] in
theorem Ascending.merge {l : List (Span α)} (h : Ascending l) : Ascending (merge l) := by
  cases l with
  | nil => exact h
  | cons p l =>
    have hlo : ((p :: l).map lo).Pairwise fun c d => c.toNat ≤ d.toNat := List.pairwise_map.2 h
    have hmerged := hlo.sublist (map_lo_mergeFrom_sublist p l)
    rw [List.pairwise_map] at hmerged
    exact hmerged

/-- Merging keeps what runs upwards so. -/
theorem Ascending.lo_le_hi_of_mem_merge {t : Span α} {l : List (Span α)} (h : Ascending l)
    (hle : ∀ s ∈ l, s.lo.toNat ≤ s.hi.toNat) (ht : t ∈ Span.merge l) : t.lo.toNat ≤ t.hi.toNat := by
  obtain ⟨s, hs, hlo, hhi, -⟩ := h.exists_of_mem_merge ht
  rw [hhi]
  exact Nat.le_trans hlo (hle s hs)

omit [DecidableEq α] [DecidableEq β] in
/-- Spans with different bounds are put in order by these alone. -/
theorem sort_map [StrictTotal α] [StrictTotal β] (f : α → β) {l : List (Span α)}
    (h : l.Pairwise fun s t => (s.lo, s.hi) ≠ (t.lo, t.hi)) :
    sort (l.map (map f)) = (sort l).map (map f) := by
  have hsorted : ((sort l).map (map f)).Pairwise fun s t => ¬ lt t s := by
    have hne := ((sort_perm l).pairwise_iff fun h e => h e.symm).2 h
    refine List.pairwise_map.2 (((pairwise_sort l).and hne).imp ?_)
    rintro s t ⟨hts, hne⟩ hlt
    rcases lt_prod_iff.1 hlt with hlo | ⟨hlo, hlt⟩
    · exact hts (lt_prod_iff.2 (.inl hlo))
    · rcases lt_prod_iff.1 hlt with hhi | ⟨hhi, -⟩
      · exact hts (lt_prod_iff.2 (.inr ⟨hlo, lt_prod_iff.2 (.inl hhi)⟩))
      · exact hne (Prod.ext hlo.symm hhi.symm)
  exact List.Perm.eq_of_pairwise (fun _ _ _ _ hts hst => eq_of_not_lt hst hts) (pairwise_sort _)
    hsorted ((sort_perm _).trans ((sort_perm l).map _).symm)

end Span

/-! ## Larger blocks -/

namespace Partition

/-- Whether each block of `p` lies in a block of `q`. -/
def Refines (p q : Partition) : Prop :=
  ∀ i, ∀ s ∈ p.block i, ∀ t ∈ p.block i, ∀ j, s ∈ q.block j → t ∈ q.block j

/-- Blocks that lie in larger ones are renamed when each state is sent to the larger block. -/
theorem Refines.exists_map {n : Nat} {kept : State → Prop} {r r' : State → State → Prop}
    {p q : Partition} (h : p.Refines q) (hp : Placed n kept r [] p) (hq : Placed n kept r' [] q) :
    ∃ f, ∀ s, q.blockOf? s = (p.blockOf? s).map f := by
  refine ⟨fun i => (q.blockOf? ((p.block i).headD 0)).getD 0, fun s => ?_⟩
  cases hs : p.blockOf? s with
  | none =>
    rw [Option.map_none, Option.eq_none_iff_forall_ne_some]
    intro j hj
    obtain ⟨i, hi⟩ := hp.exists_mem_block (hq.kept_of_mem_block (hq.blockOf?_eq_some_iff.1 hj))
    rw [hp.blockOf?_eq_some_iff.2 hi] at hs
    cases hs
  | some i =>
    have hi := hp.blockOf?_eq_some_iff.1 hs
    obtain ⟨j, hj⟩ := hq.exists_mem_block (hp.kept_of_mem_block hi)
    obtain ⟨t, rest, hb⟩ := List.exists_cons_of_ne_nil (List.ne_nil_of_mem hi)
    have ht := h i s hi t (hb ▸ List.mem_cons_self) j hj
    rw [Option.map_some, hq.blockOf?_eq_some_iff.2 hj, hb, List.headD_cons,
      hq.blockOf?_eq_some_iff.2 ht]
    rfl

end Partition

namespace Automaton

open PatternAutomata.Partition

variable {a : Automaton} {p q : Partition} {s t : State}

/-- The bounds of a deterministic state are all different. -/
theorem pairwise_blockSpans (hd : a.isDeterministic = true) (p : Partition) (s : State) :
    (a.blockSpans p s).Pairwise fun m n => (m.lo, m.hi) ≠ (n.lo, n.hi) := by
  refine List.pairwise_filterMap.2 ((pairwise_bounds?_ne hd s).imp fun {r r'} hne m hm n hn e => ?_)
  refine hne _ (blockSpan?_eq_some_iff.1 hm).1 ?_
  rw [e]
  exact (blockSpan?_eq_some_iff.1 hn).1

section Coarser

variable (hd : a.isDeterministic = true) {f : Nat → Nat}
  (hf : ∀ s, q.blockOf? s = (p.blockOf? s).map f)
include hf

theorem blockSpans_eq_map (s : State) :
    a.blockSpans q s = (a.blockSpans p s).map (Span.map f) := by
  rw [blockSpans_eq, blockSpans_eq, List.map_filterMap]
  refine List.filterMap_congr fun r _ => ?_
  unfold blockSpan?
  rw [hf]
  cases r.label.bounds? with
  | none => rfl
  | some b => cases p.blockOf? r.dest <;> rfl

include hd

/-- The merged spans into the larger blocks are made from those into the smaller ones. -/
theorem merge_sort_blockSpans (s : State) :
    Span.merge (sort (a.blockSpans q s)) =
      Span.merge ((Span.merge (sort (a.blockSpans p s))).map (Span.map f)) := by
  rw [blockSpans_eq_map hf, Span.sort_map f (pairwise_blockSpans hd p s), Span.merge_map_merge]

theorem signatureOf_eq_of_map (h : a.signatureOf p s = a.signatureOf p t) :
    a.signatureOf q s = a.signatureOf q t := by
  have hspans := Function.Injective.list_map Span.injective_label_target h
  unfold signatureOf
  rw [merge_sort_blockSpans hd hf s, merge_sort_blockSpans hd hf t, hspans]

theorem proper_signatureOf_of_map (h : ∀ m ∈ a.signatureOf p s, m.1.Proper) :
    ∀ m ∈ a.signatureOf q s, m.1.Proper := by
  have hle : ∀ m ∈ (Span.merge (sort (a.blockSpans p s))).map (Span.map f),
      m.lo.toNat ≤ m.hi.toNat := by
    intro m hm
    obtain ⟨n, hn, rfl⟩ := List.mem_map.1 hm
    exact Span.proper_label_iff.1 (h _ (List.mem_map_of_mem hn))
  have hascending : Span.Ascending ((Span.merge (sort (a.blockSpans p s))).map (Span.map f)) :=
    List.pairwise_map.2 (Span.ascending_sort _).merge
  intro m hm
  unfold signatureOf at hm
  rw [merge_sort_blockSpans hd hf s] at hm
  obtain ⟨n, hn, rfl⟩ := List.mem_map.1 hm
  exact Span.proper_label_iff.2 (hascending.lo_le_hi_of_mem_merge hle hn)

end Coarser

/-! ## Stable partitions -/

/-- The blocks hold what is kept, and members of one block share acceptance and signature. -/
structure Stable (a : Automaton) (p : Partition) : Prop where
  placed : Placed a.size (· ∈ a.kept) (fun s t => a.accepting s = a.accepting t) [] p
  uniform : ∀ i, a.Uniform p i

theorem Stable.refines_initialPartition (h : a.Stable p) : p.Refines a.initialPartition :=
  fun i s hs t ht _ hj =>
    mem_block_initialPartition hj (h.placed.kept_of_mem_block ht) (h.placed.related i s hs t ht)

/-- A split by signature does not part what a stable partition keeps together. -/
theorem Stable.refines_splitBySignature {r : State → State → Prop} (h : a.Stable p)
    (hd : a.isDeterministic = true) (hq : Placed a.size (· ∈ a.kept) r [] q) (hpq : p.Refines q)
    {i : Nat} (hi : i < q.size) : p.Refines (a.splitBySignature q i) := by
  obtain ⟨f, hf⟩ := hpq.exists_map h.placed hq
  intro k s hs t ht j hj
  rcases block_splitBySignature (a := a) hi j with heq | ⟨σ, hσ⟩
  · rw [heq] at hj ⊢
    exact hpq k s hs t ht j hj
  · rw [hσ] at hj ⊢
    obtain ⟨hmem, hsig⟩ := List.mem_filter.1 hj
    have heq := signatureOf_eq_of_map hd hf (h.uniform k t ht s hs)
    exact List.mem_filter.2 ⟨hpq k s hs t ht i hmem,
      decide_eq_true (heq.trans (of_decide_eq_true hsig))⟩

end Automaton

end PatternAutomata
