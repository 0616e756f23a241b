import PatternAutomata.Proofs.Determinism
import PatternAutomata.Proofs.Partition
import PatternAutomata.Proofs.Sequencing

/-!
# What the refinement settles on

The signature of a state writes down where its steps lead in terms of blocks
(`exists_mem_signatureOf`).  Splitting a block by signature keeps the partition in place, and a round
that adds no block has changed nothing, so its blocks are uniform.  What else such a split keeps
holds in the end, too:

    a.settle fuel p = .ok q → (q is placed ∧ Q q) ∧ members of one block of q share their signature
                                                                                (settle_spec)

The number of blocks is the measure: each round but the last adds one, and there are at most as many
as states.  The rounds fail only where a member of a block has no signature, because a merged label
runs downwards (`exists_of_settle_eq_error`, `signature_eq_ok_iff`).
-/

namespace PatternAutomata.Automaton

open StrictTotal PatternAutomata.Partition

variable {a : Automaton} {p : Partition} {s : State}

/-! ## Signatures -/

/-- The characters of an arrow, if it has any, with the block it leads to, if there is one. -/
def blockSpan? (p : Partition) (r : Arrow) : Option (Span Nat) := do
  let (lo, hi) ← r.label.bounds?
  let b ← p.blockOf? r.dest
  some ⟨lo, hi, b⟩

theorem blockSpans_eq (a : Automaton) (p : Partition) (s : State) :
    a.blockSpans p s = (a.arrows s).filterMap (blockSpan? p) := rfl

theorem blockSpan?_eq_some_iff {r : Arrow} {m : Span Nat} :
    blockSpan? p r = some m ↔
      r.label.bounds? = some (m.lo, m.hi) ∧ p.blockOf? r.dest = some m.target := by
  constructor
  · intro h
    obtain ⟨⟨lo, hi⟩, hb, h⟩ := Option.bind_eq_some_iff.1 h
    obtain ⟨b, hd, h⟩ := Option.bind_eq_some_iff.1 h
    cases h
    exact ⟨hb, hd⟩
  · rintro ⟨hb, hd⟩
    unfold blockSpan?
    rw [hb, hd]
    rfl

theorem mem_blockSpans {m : Span Nat} :
    m ∈ a.blockSpans p s ↔
      ∃ r ∈ a.arrows s, r.label.bounds? = some (m.lo, m.hi) ∧ p.blockOf? r.dest = some m.target := by
  rw [blockSpans_eq, List.mem_filterMap]
  exact exists_congr fun r => and_congr_right fun _ => blockSpan?_eq_some_iff

/-- The spans of a signature lie apart, as the labels do. -/
theorem separate_blockSpans (h : a.ExclusiveAt s) : Span.Separate (sort (a.blockSpans p s)) :=
  h.separate_sort fun _ _ hm => (blockSpan?_eq_some_iff.1 hm).1

/-- The signature of a state, when there is one. -/
def signatureOf (a : Automaton) (p : Partition) (s : State) : Signature :=
  (Span.merge (sort (a.blockSpans p s))).map fun m => (m.label, m.target)

/-- A merged span ends with an arrow, into its block, that begins inside or behind it. -/
theorem exists_arrow_of_mem_merge {m : Span Nat} (hm : m ∈ Span.merge (sort (a.blockSpans p s))) :
    ∃ r ∈ a.arrows s, p.blockOf? r.dest = some m.target ∧
      ∃ lo, r.label.bounds? = some (lo, m.hi) ∧ m.lo.toNat ≤ lo.toNat := by
  obtain ⟨n, hn, hlo, hhi, htarget⟩ := (Span.ascending_sort _).exists_of_mem_merge hm
  obtain ⟨r, hr, hb, hd⟩ := mem_blockSpans.1 (mem_sort.1 hn)
  rw [hhi, htarget]
  exact ⟨r, hr, hd, n.lo, hb, hlo⟩

/-- There is a signature when no merged label runs downwards. -/
theorem signature_eq_ok_iff {σ : Signature} :
    a.signature p s = .ok σ ↔ σ = a.signatureOf p s ∧ ∀ m ∈ σ, m.1.Proper := by
  unfold signature signatureOf
  constructor
  · intro h
    have hlabel : ∀ m ∈ Span.merge (sort (a.blockSpans p s)), m.lo.toNat ≤ m.hi.toNat := by
      intro m hm
      obtain ⟨i, hi⟩ := List.mem_iff_getElem?.1 hm
      obtain ⟨x, -, hx⟩ := getElem?_of_mapM_eq_ok h hi
      by_contra hlt
      rw [Label.ofBounds, if_pos (by omega)] at hx
      cases hx
    have hmap := mapM_eq_ok (l := Span.merge (sort (a.blockSpans p s)))
      (f := fun m => (Label.ofBounds m.lo m.hi).map fun l => (l, m.target))
      (g := fun m => (m.label, m.target)) fun m hm => by
        rw [Label.ofBounds, if_neg (Nat.not_lt.2 (hlabel m hm))]
        rfl
    cases h.symm.trans hmap
    refine ⟨rfl, fun m hm => ?_⟩
    obtain ⟨n, hn, rfl⟩ := List.mem_map.1 hm
    exact Span.proper_label_iff.2 (hlabel n hn)
  · rintro ⟨rfl, hproper⟩
    refine mapM_eq_ok fun m hm => ?_
    have hle := Span.proper_label_iff.1 (hproper _ (List.mem_map_of_mem hm))
    rw [Label.ofBounds, if_neg (Nat.not_lt.2 hle)]
    rfl

/-- The one way to fail: a merged label runs downwards, and so does the label that it ends with. -/
theorem exists_of_signature_eq_error {e : Misuse} (h : a.signature p s = .error e) :
    ∃ lo hi, e = .emptyInterval lo hi ∧ hi.toNat < lo.toNat ∧
      ∃ r ∈ a.arrows s, (∃ b, p.blockOf? r.dest = some b) ∧
        ∃ lo', r.label.bounds? = some (lo', hi) ∧ lo.toNat ≤ lo'.toNat := by
  obtain ⟨m, hm, hfail⟩ := exists_of_mapM_eq_error h
  obtain ⟨r, hr, hd, hends⟩ := exists_arrow_of_mem_merge hm
  rw [Label.ofBounds] at hfail
  split at hfail
  · next hlt =>
    cases hfail
    exact ⟨m.lo, m.hi, rfl, hlt, r, hr, ⟨_, hd⟩, hends⟩
  · cases hfail

theorem signature_eq (h : a.ExclusiveAt s) (p : Partition) :
    a.signature p s = .ok (a.signatureOf p s) := by
  refine signature_eq_ok_iff.2 ⟨rfl, fun m hm => ?_⟩
  obtain ⟨n, hn, rfl⟩ := List.mem_map.1 hm
  exact Span.proper_label_iff.2 ((separate_blockSpans h).merge.lo_le_hi n hn)

theorem signatures_eq {members : List State} {signatures : List Signature}
    (h : members.mapM (a.signature p) = .ok signatures) : signatures = members.map (a.signatureOf p) := by
  rw [← List.forall₂_eq_eq_eq, List.forall₂_map_right_iff]
  exact (mapM_eq_ok_iff.1 h).flip.imp fun _ _ h => (signature_eq_ok_iff.1 h).1

/-- The spans out of a state hold the steps that lead into blocks. -/
theorem exists_mem_blockSpans (h : a.ExclusiveAt s) {c : Char} {b : Nat} :
    (∃ m ∈ sort (a.blockSpans p s), m.covers c = true ∧ m.target = b) ↔
      ∃ t, a.step s c = some t ∧ p.blockOf? t = some b := by
  constructor
  · rintro ⟨⟨lo, hi, b'⟩, hm, hc, rfl⟩
    obtain ⟨⟨l, t⟩, hr, hb, hd⟩ := mem_blockSpans.1 (mem_sort.1 hm)
    have hl := (Label.admits_iff_of_bounds? hb).2 (Span.covers_iff.1 hc)
    exact ⟨t, (step_eq_some_iff h).2 ⟨l, hr, hl⟩, hd⟩
  · rintro ⟨t, ht, hd⟩
    obtain ⟨l, hr, hc⟩ := mem_arrows_of_step ht
    obtain ⟨lo, hi, hb, hle⟩ := Label.admits_iff.1 hc
    exact ⟨⟨lo, hi, b⟩, mem_sort.2 (mem_blockSpans.2 ⟨_, hr, hb, hd⟩), Span.covers_iff.2 hle, rfl⟩

/-- A signature has the steps that lead into blocks. -/
theorem exists_mem_signatureOf (h : a.ExclusiveAt s) {c : Char} {b : Nat} :
    (∃ m ∈ a.signatureOf p s, m.1.admits c = true ∧ m.2 = b) ↔
      ∃ t, a.step s c = some t ∧ p.blockOf? t = some b := by
  have hlabel : (∃ m ∈ a.signatureOf p s, m.1.admits c = true ∧ m.2 = b) ↔
      ∃ m ∈ Span.merge (sort (a.blockSpans p s)), m.covers c = true ∧ m.target = b := by
    simp [signatureOf]
  rw [hlabel, Span.exists_mem_merge (separate_blockSpans h), exists_mem_blockSpans h]

/-! ## Groups of members -/

theorem zip_map_self {α β : Type} (f : α → β) (l : List α) :
    (l.map f).zip l = l.map fun x => (f x, x) := by
  simpa using List.zip_map' (f := f) (g := id) (l := l)

theorem groupBySignature_eq (f : State → Signature) (l : List State) :
    groupBySignature (l.map fun s => (f s, s)) =
      (OrderedSet.ofList (l.map f).eraseDups).toList.map fun σ => l.filter fun s => decide (f s = σ) := by
  unfold groupBySignature
  rw [List.map_map]
  refine List.map_congr_left fun σ _ => ?_
  rw [List.filter_map, List.map_map]
  exact List.map_id _

theorem mem_signatures {f : State → Signature} {l : List State} {σ : Signature} :
    σ ∈ (OrderedSet.ofList (l.map f).eraseDups).toList ↔ ∃ s ∈ l, f s = σ := by
  rw [OrderedSet.mem_toList, OrderedSet.mem_ofList, List.mem_eraseDups, List.mem_map]

theorem parts_groupBySignature (f : State → Signature) (l : List State) :
    Parts l (groupBySignature (l.map fun s => (f s, s))) := by
  rw [groupBySignature_eq]
  constructor
  · intro g hg
    obtain ⟨σ, hσ, rfl⟩ := List.mem_map.1 hg
    obtain ⟨s, hs, rfl⟩ := mem_signatures.1 hσ
    exact List.ne_nil_of_mem (List.mem_filter.2 ⟨hs, decide_eq_true rfl⟩)
  · refine List.pairwise_map.2 ((OrderedSet.nodup_toList _).imp fun {σ τ} hne s hs ht => hne ?_)
    have hs := of_decide_eq_true (List.mem_filter.1 hs).2
    have ht := of_decide_eq_true (List.mem_filter.1 ht).2
    exact hs.symm.trans ht
  · intro s
    constructor
    · intro hs
      exact ⟨_, List.mem_map_of_mem (mem_signatures.2 ⟨s, hs, rfl⟩),
        List.mem_filter.2 ⟨hs, decide_eq_true rfl⟩⟩
    · rintro ⟨g, hg, hs⟩
      obtain ⟨σ, -, rfl⟩ := List.mem_map.1 hg
      exact (List.mem_filter.1 hs).1

/-- One group means one signature. -/
theorem eq_of_groupBySignature_eq_singleton {f : State → Signature} {l : List State}
    {g : List State} (h : groupBySignature (l.map fun s => (f s, s)) = [g]) :
    g = l ∧ ∀ s ∈ l, ∀ t ∈ l, f s = f t := by
  rw [groupBySignature_eq, List.map_eq_singleton_iff] at h
  obtain ⟨σ, hσ, rfl⟩ := h
  have hall : ∀ s ∈ l, f s = σ := fun s hs => by
    have hmem := mem_signatures.2 ⟨s, hs, Eq.refl (f s)⟩
    rw [hσ] at hmem
    exact List.mem_singleton.1 hmem
  refine ⟨List.filter_eq_self.2 fun s hs => decide_eq_true (hall s hs), fun s hs t ht => ?_⟩
  rw [hall s hs, hall t ht]

theorem parts_splitByAcceptance (a : Automaton) (members : List State) :
    Parts members (a.splitByAcceptance members) := by
  unfold splitByAcceptance
  constructor
  · intro g hg
    have := (List.mem_filter.1 hg).2
    rwa [Bool.not_eq_true', List.isEmpty_eq_false_iff] at this
  · refine List.Pairwise.filter _ (List.pairwise_pair.2 fun s hs ht => ?_)
    have hs := (List.mem_filter.1 hs).2
    have ht := (List.mem_filter.1 ht).2
    rw [hs] at ht
    cases ht
  · intro s
    have hne : ∀ q : State → Bool, s ∈ members → q s = true →
        (!(members.filter q).isEmpty) = true := fun q hs hq => by
      rw [Bool.not_eq_true', List.isEmpty_eq_false_iff]
      exact List.ne_nil_of_mem (List.mem_filter.2 ⟨hs, hq⟩)
    constructor
    · intro hs
      cases ha : a.accepting s with
      | true =>
        have hs' := List.mem_filter.2 ⟨hs, ha⟩
        exact ⟨_, List.mem_filter.2 ⟨by simp, hne _ hs ha⟩, hs'⟩
      | false =>
        have ha' : (!a.accepting s) = true := by rw [ha]; rfl
        have hs' := List.mem_filter (p := fun s => !a.accepting s).2 ⟨hs, ha'⟩
        exact ⟨_, List.mem_filter.2 ⟨by simp, hne (fun s => !a.accepting s) hs ha'⟩, hs'⟩
    · rintro ⟨g, hg, hs⟩
      have hg := (List.mem_filter.1 hg).1
      rcases List.mem_cons.1 hg with rfl | hg
      · exact (List.mem_filter.1 hs).1
      · rw [List.mem_singleton.1 hg] at hs
        exact (List.mem_filter.1 hs).1

/-! ## Rounds -/

/-- Whether the members of a block share their signature. -/
def Uniform (a : Automaton) (p : Partition) (i : Nat) : Prop :=
  ∀ s ∈ p.block i, ∀ t ∈ p.block i, a.signatureOf p s = a.signatureOf p t

/-- The partition with the block at a place split by signature. -/
def splitBySignature (a : Automaton) (p : Partition) (i : Nat) : Partition :=
  p.split i (groupBySignature ((p.block i).map fun s => (a.signatureOf p s, s)))

/-- A block after a split by signature was there before or holds what had some signature. -/
theorem block_splitBySignature {i : Nat} (hi : i < p.size) (j : Nat) :
    (a.splitBySignature p i).block j = p.block j ∨
      ∃ σ, (a.splitBySignature p i).block j =
        (p.block i).filter fun s => decide (a.signatureOf p s = σ) := by
  unfold splitBySignature
  rcases block_split hi (groupBySignature ((p.block i).map fun s => (a.signatureOf p s, s))) j
    with hgroup | heq
  · rw [groupBySignature_eq (a.signatureOf p) (p.block i), List.mem_map] at hgroup
    obtain ⟨σ, -, hσ⟩ := hgroup
    rw [groupBySignature_eq (a.signatureOf p) (p.block i)]
    exact .inr ⟨σ, hσ.symm⟩
  · exact .inl heq

section Rounds

variable {kept : State → Prop} {r : State → State → Prop} {Q : Partition → Prop} {q : Partition}
  {e : Misuse}

/-- A block of one state stays, and any other is split by signature. -/
theorem splitBlock_eq_ok {i : Nat} (hq : a.splitBlock p i = .ok q) :
    q = if (p.block i).length ≤ 1 then p else a.splitBySignature p i := by
  unfold splitBlock at hq
  dsimp only at hq
  split at hq
  · next hlen =>
    cases hq
    rw [if_pos hlen]
  · next hlen =>
    obtain ⟨signatures, hsignatures, hq⟩ := bind_eq_ok_iff.1 hq
    cases hq
    rw [if_neg hlen, signatures_eq hsignatures, zip_map_self]
    rfl

theorem exists_of_splitBlock_eq_error {i : Nat} (he : a.splitBlock p i = .error e) :
    ∃ s ∈ p.block i, a.signature p s = .error e := by
  unfold splitBlock at he
  dsimp only at he
  split at he
  · cases he
  · rcases bind_eq_error_iff.1 he with he | ⟨signatures, -, he⟩
    · exact exists_of_mapM_eq_error he
    · cases he

section Invariant

variable (hQ : ∀ p i, Placed a.size kept r [] p → i < p.size → Q p → Q (a.splitBySignature p i))
include hQ

/-- Splitting a block adds blocks or finds it uniform. -/
theorem splitBlock_spec (h : Placed a.size kept r [] p) (hp : Q p) {i : Nat} (hi : i < p.size)
    (hq : a.splitBlock p i = .ok q) :
    (Placed a.size kept r [] q ∧ Q q) ∧ (p.size < q.size ∨ q = p ∧ a.Uniform p i) := by
  cases splitBlock_eq_ok hq
  by_cases hlen : (p.block i).length ≤ 1
  · rw [if_pos hlen]
    refine ⟨⟨h, hp⟩, .inr ⟨rfl, fun s hs t ht => ?_⟩⟩
    match hb : p.block i with
    | [] => simp [hb] at hs
    | [u] =>
      rw [hb, List.mem_singleton] at hs ht
      rw [hs, ht]
    | _ :: _ :: _ => simp [hb] at hlen
  · have hparts := parts_groupBySignature (a.signatureOf p) (p.block i)
    rw [if_neg hlen]
    refine ⟨⟨h.split hi hparts, hQ p i h hi hp⟩, ?_⟩
    unfold splitBySignature
    match hg : groupBySignature ((p.block i).map fun s => (a.signatureOf p s, s)) with
    | [] =>
      rw [hg] at hparts
      obtain ⟨s, hs⟩ := List.exists_mem_of_ne_nil _ (h.nonempty i hi)
      obtain ⟨g, hg, -⟩ := (hparts.mem_iff s).1 hs
      cases hg
    | [g] =>
      obtain ⟨rfl, huni⟩ := eq_of_groupBySignature_eq_singleton hg
      exact .inr ⟨split_block_self hi, huni⟩
    | first :: second :: others =>
      rw [size_split, List.length_cons]
      exact .inl (by omega)

/-- A round that adds no block has found all blocks uniform. -/
theorem refineFrom_spec {fuel i : Nat} (h : Placed a.size kept r [] p) (hp : Q p)
    (hf : a.size ≤ i + fuel) (hq : a.refineFrom fuel i p = .ok q) :
    (Placed a.size kept r [] q ∧ Q q) ∧
      (p.size < q.size ∨ q = p ∧ ∀ j, i ≤ j → a.Uniform p j) := by
  have hpast : ∀ p : Partition, ∀ j, p.size ≤ j → a.Uniform p j := fun p j hj s hs => by
    rw [block_of_le hj] at hs
    cases hs
  induction fuel generalizing i p with
  | zero =>
    have := h.size_le
    cases hq
    exact ⟨⟨h, hp⟩, .inr ⟨rfl, fun j hj => hpast _ j (by omega)⟩⟩
  | succ fuel ih =>
    unfold refineFrom at hq
    split at hq
    · next hi =>
      obtain ⟨p', hp', hq⟩ := bind_eq_ok_iff.1 hq
      obtain ⟨⟨h', hQ'⟩, hsplit⟩ := splitBlock_spec hQ h hp hi hp'
      obtain ⟨hqp, hround⟩ := ih (i := i + 1) h' hQ' (by omega) hq
      refine ⟨hqp, ?_⟩
      rcases hsplit with hlt | ⟨rfl, huni⟩
      · refine .inl ?_
        rcases hround with hlt' | ⟨rfl, -⟩
        · exact Nat.lt_trans hlt hlt'
        · exact hlt
      · rcases hround with hlt | ⟨rfl, huni'⟩
        · exact .inl hlt
        · refine .inr ⟨rfl, fun j hj => ?_⟩
          rcases Nat.lt_or_eq_of_le hj with hj | rfl
          · exact huni' j hj
          · exact huni
    · cases hq
      exact ⟨⟨h, hp⟩, .inr ⟨rfl, fun j hj => hpast _ j (by omega)⟩⟩

/-- With more fuel than there are blocks to come, the rounds end with uniform blocks. -/
theorem settle_spec {fuel : Nat} (h : Placed a.size kept r [] p) (hp : Q p)
    (hf : a.size < p.size + fuel) (hq : a.settle fuel p = .ok q) :
    (Placed a.size kept r [] q ∧ Q q) ∧ ∀ i, a.Uniform q i := by
  induction fuel generalizing p with
  | zero =>
    have := h.size_le
    omega
  | succ fuel ih =>
    obtain ⟨p', hp', hq⟩ := bind_eq_ok_iff.1 hq
    obtain ⟨hqp, hround⟩ := refineFrom_spec hQ (i := 0) h hp (Nat.le_add_left _ _) hp'
    split at hq
    · next hsize =>
      cases hq
      rcases hround with hlt | ⟨rfl, huni⟩
      · omega
      · exact ⟨hqp, fun i => huni i (Nat.zero_le i)⟩
    · rcases hround with hlt | ⟨rfl, -⟩
      · exact ih hqp.1 hqp.2 (by omega) hq
      · next hsize => exact absurd rfl hsize

/-- A round fails at a signature, in a partition that it has come to. -/
theorem exists_of_refineFrom_eq_error {fuel i : Nat} (h : Placed a.size kept r [] p) (hp : Q p)
    (he : a.refineFrom fuel i p = .error e) :
    ∃ q j, (Placed a.size kept r [] q ∧ Q q) ∧ ∃ s ∈ q.block j, a.signature q s = .error e := by
  induction fuel generalizing i p with
  | zero => cases he
  | succ fuel ih =>
    unfold refineFrom at he
    split at he
    · next hi =>
      rcases bind_eq_error_iff.1 he with he | ⟨p', hp', he⟩
      · exact ⟨p, i, ⟨h, hp⟩, exists_of_splitBlock_eq_error he⟩
      · obtain ⟨⟨h', hQ'⟩, -⟩ := splitBlock_spec hQ h hp hi hp'
        exact ih h' hQ' he
    · cases he

theorem exists_of_settle_eq_error {fuel : Nat} (h : Placed a.size kept r [] p) (hp : Q p)
    (he : a.settle fuel p = .error e) :
    ∃ q j, (Placed a.size kept r [] q ∧ Q q) ∧ ∃ s ∈ q.block j, a.signature q s = .error e := by
  induction fuel generalizing p with
  | zero => cases he
  | succ fuel ih =>
    rcases bind_eq_error_iff.1 he with he | ⟨p', hp', he⟩
    · exact exists_of_refineFrom_eq_error hQ h hp he
    · obtain ⟨⟨h', hQ'⟩, -⟩ := refineFrom_spec hQ (i := 0) h hp (Nat.le_add_left _ _) hp'
      split at he
      · cases he
      · exact ih h' hQ' he

/-- With labels that lie apart each signature is there, and so nothing fails. -/
theorem exists_settle (hx : a.Exclusive) {fuel : Nat} (h : Placed a.size kept r [] p) (hp : Q p)
    (hf : a.size < p.size + fuel) :
    ∃ q, a.settle fuel p = .ok q ∧ (Placed a.size kept r [] q ∧ Q q) ∧ ∀ i, a.Uniform q i := by
  cases hq : a.settle fuel p with
  | ok q => exact ⟨q, rfl, settle_spec hQ h hp hf hq⟩
  | error e =>
    obtain ⟨q, -, -, s, -, hfail⟩ := exists_of_settle_eq_error hQ h hp hq
    rw [signature_eq (hx s) q] at hfail
    cases hfail

end Invariant

end Rounds

end PatternAutomata.Automaton
