import PatternAutomata.Proofs.InStep
import PatternAutomata.Proofs.Reach
import PatternAutomata.Proofs.Refinement

/-!
# What states accept from here on

`acceptsFrom a s` is the residual of a state: the texts that lead from it to an accepting state.  A
state is productive when its residual has a text (`productive_iff`), and a step to a productive state
is one that every state with the same residual can take (`exists_step_of_acceptsFrom_eq`).

A partition is *coarse* when kept states with one residual are in one block.  The refinement starts
with a coarse partition, and a split by signature keeps it coarse:

    a.Coarse a.initialPartition                                          (coarse_initialPartition)
    a.Coarse p → a.Coarse (a.splitBySignature p i)                       (Coarse.splitBySignature)

Signatures are compared through the steps that they write down, also between two automata with a
partition each (`rowsAlike_signatureOf`).
-/

namespace PatternAutomata.Automaton

open Relation Relator StrictTotal PatternAutomata.Partition

variable {a b : Automaton} {p p' : Partition} {s t : State} {c : Char} {w : List Char}

/-! ## Residuals -/

/-- Whether a text leads from a state to an accepting one. -/
def acceptsFrom (a : Automaton) (s : State) (w : List Char) : Bool :=
  match a.runFrom s w with
  | some t => a.accepting t
  | none => false

@[simp] theorem acceptsFrom_nil (a : Automaton) (s : State) : a.acceptsFrom s [] = a.accepting s := rfl

theorem acceptsFrom_cons_of_some (h : a.step s c = some t) (w : List Char) :
    a.acceptsFrom s (c :: w) = a.acceptsFrom t w := by
  unfold acceptsFrom
  rw [runFrom, h]
  rfl

theorem acceptsFrom_cons_of_none (h : a.step s c = none) (w : List Char) :
    a.acceptsFrom s (c :: w) = false := by
  unfold acceptsFrom
  rw [runFrom, h]
  rfl

theorem exists_step_of_acceptsFrom (h : a.acceptsFrom s (c :: w) = true) :
    ∃ t, a.step s c = some t ∧ a.acceptsFrom t w = true := by
  cases hstep : a.step s c with
  | none =>
    rw [acceptsFrom_cons_of_none hstep] at h
    cases h
  | some t => exact ⟨t, rfl, by rwa [acceptsFrom_cons_of_some hstep] at h⟩

theorem accepts_eq_acceptsFrom (hs : a.initial = some s) (w : List Char) :
    a.accepts w = a.acceptsFrom s w := by
  unfold accepts run
  rw [hs]
  rfl

theorem moves_of_step (h : a.step s c = some t) : a.Moves s t := by
  obtain ⟨l, hl, -⟩ := mem_arrows_of_step h
  exact ⟨l, hl⟩

theorem moves_of_runFrom (h : a.runFrom s w = some t) : ReflTransGen a.Moves s t := by
  induction w generalizing s with
  | nil =>
    cases h
    exact .refl
  | cons c w ih =>
    obtain ⟨u, hu, h⟩ := Option.bind_eq_some_iff.1 h
    exact .head (moves_of_step hu) (ih h)

theorem lt_size_of_runFrom (hw : a.WellFormed) (hs : s < a.size) (h : a.runFrom s w = some t) :
    t < a.size := by
  cases moves_of_runFrom h with
  | refl => exact hs
  | tail _ hm => exact hw.lt_of_moves hm

theorem productive_of_acceptsFrom (h : a.acceptsFrom s w = true) : a.Productive s := by
  unfold acceptsFrom at h
  split at h
  · next t ht => exact ⟨t, h, moves_of_runFrom ht⟩
  · cases h

/-- Every move of exclusive labels is a step over some character. -/
theorem exists_runFrom_of_moves (hx : a.Exclusive) (h : ReflTransGen a.Moves s t) :
    ∃ w, a.runFrom s w = some t := by
  induction h using ReflTransGen.head_induction_on with
  | refl => exact ⟨[], rfl⟩
  | @head s u hsu _ ih =>
    obtain ⟨w, hw⟩ := ih
    obtain ⟨l, hl⟩ := hsu
    obtain ⟨c, hc⟩ := (hx s).proper l (List.mem_map_of_mem hl)
    have hstep : a.step s c = some u := (step_eq_some_iff (hx s)).2 ⟨l, hl, hc⟩
    refine ⟨c :: w, ?_⟩
    rw [runFrom, hstep]
    exact hw

theorem acceptsFrom_append (h : a.runFrom s w = some t) (v : List Char) :
    a.acceptsFrom s (w ++ v) = a.acceptsFrom t v := by
  unfold acceptsFrom
  rw [runFrom_append, h]
  rfl

theorem exists_runFrom_of_acceptsFrom {v : List Char} (h : a.acceptsFrom s (w ++ v) = true) :
    ∃ t, a.runFrom s w = some t := by
  unfold acceptsFrom at h
  rw [runFrom_append] at h
  cases hw : a.runFrom s w with
  | none =>
    rw [hw] at h
    cases h
  | some t => exact ⟨t, rfl⟩

theorem productive_iff (hx : a.Exclusive) : a.Productive s ↔ ∃ w, a.acceptsFrom s w = true := by
  constructor
  · rintro ⟨t, ht, hp⟩
    obtain ⟨w, hw⟩ := exists_runFrom_of_moves hx hp
    refine ⟨w, ?_⟩
    unfold acceptsFrom
    rw [hw]
    exact ht
  · rintro ⟨w, hw⟩
    exact productive_of_acceptsFrom hw

/-- States with one residual step alike, as long as something is still accepted. -/
theorem exists_step_of_acceptsFrom_eq (h : a.acceptsFrom s = b.acceptsFrom t) {s' : State}
    (hs : a.step s c = some s') (hw : ∃ w, a.acceptsFrom s' w = true) :
    ∃ t', b.step t c = some t' ∧ a.acceptsFrom s' = b.acceptsFrom t' := by
  have hcons : ∀ v, b.acceptsFrom t (c :: v) = a.acceptsFrom s' v := fun v => by
    rw [← h, acceptsFrom_cons_of_some hs]
  obtain ⟨w, hw⟩ := hw
  obtain ⟨t', ht', -⟩ := exists_step_of_acceptsFrom ((hcons w).trans hw)
  refine ⟨t', ht', funext fun v => ?_⟩
  rw [← hcons, acceptsFrom_cons_of_some ht']

/-! ## Signatures by their steps -/

theorem mergedRow_signatureOf (h : a.ExclusiveAt s) (p : Partition) :
    Exploration.MergedRow (a.signatureOf p s) := ⟨_, (separate_blockSpans h).merged_merge, rfl⟩

/-- Whether each step of `s` into a block is matched by a step of `t` into a related block. -/
def Matches (R : Nat → Nat → Prop) (a : Automaton) (p : Partition) (s : State) (b : Automaton)
    (p' : Partition) (t : State) : Prop :=
  ∀ c s' i, a.step s c = some s' → p.blockOf? s' = some i →
    ∃ t' j, b.step t c = some t' ∧ p'.blockOf? t' = some j ∧ R i j

variable {R : Nat → Nat → Prop}

theorem Matches.exists_mem (ha : a.ExclusiveAt s) (hb : b.ExclusiveAt t)
    (h : Matches R a p s b p' t) (c : Char) :
    ∀ m ∈ a.signatureOf p s, m.1.admits c = true →
      ∃ m' ∈ b.signatureOf p' t, m'.1.admits c = true ∧ R m.2 m'.2 := by
  intro m hm hc
  obtain ⟨s', hs', hi⟩ := (exists_mem_signatureOf ha).1 ⟨m, hm, hc, rfl⟩
  obtain ⟨t', j, ht', hj, hij⟩ := h c s' m.2 hs' hi
  obtain ⟨m', hm', hc', rfl⟩ := (exists_mem_signatureOf hb).2 ⟨t', ht', hj⟩
  exact ⟨m', hm', hc', hij⟩

/-- States that match each other's steps have the same labels in their signatures, in order, and
lead to related blocks. -/
theorem rowsAlike_signatureOf (hR : BiUnique R) (ha : a.ExclusiveAt s) (hb : b.ExclusiveAt t)
    (h : Matches R a p s b p' t) (h' : Matches (flip R) b p' t a p s) :
    Exploration.RowsAlike R (a.signatureOf p s) (b.signatureOf p' t) :=
  Exploration.rowsAlike_of_mergedRow hR (mergedRow_signatureOf ha p) (mergedRow_signatureOf hb p')
    (h.exists_mem ha hb) (h'.exists_mem hb ha)

theorem signatureOf_eq (ha : a.ExclusiveAt s) (hb : a.ExclusiveAt t) (h : Matches Eq a p s a p t)
    (h' : Matches Eq a p t a p s) : a.signatureOf p s = a.signatureOf p t := by
  have hswap : Matches (flip Eq) a p t a p s := by
    intro c t' j ht' hj
    obtain ⟨s', i, hs', hi, hij⟩ := h' c t' j ht' hj
    exact ⟨s', i, hs', hi, hij.symm⟩
  have hrows := rowsAlike_signatureOf ⟨fun _ _ _ h h' => h.trans h'.symm,
    fun _ _ _ h h' => h.symm.trans h'⟩ ha hb h hswap
  rw [← List.forall₂_eq_eq_eq]
  exact hrows.imp fun m m' hm => Prod.ext hm.1 hm.2

/-! ## States that take part -/

theorem mem_kept : s ∈ a.kept ↔ a.initial = some s ∨ s ∈ a.reachable ∧ s ∈ a.productive := by
  unfold kept
  rw [OrderedSet.mem_union, OrderedSet.mem_ofList, Option.mem_toList, mem_live_iff]

theorem mem_kept_iff (hs : a.initial = some s) : t ∈ a.kept ↔ t = s ∨ t ∈ a.live := by
  rw [kept, OrderedSet.mem_union, OrderedSet.mem_ofList, Option.mem_toList, hs, Option.some_inj,
    eq_comm]

theorem mem_live_iff_of_initial (hw : a.WellFormed) (hs : a.initial = some s) :
    t ∈ a.live ↔ ReflTransGen a.Moves s t ∧ a.Productive t := by
  rw [mem_live_iff, mem_reachable hw, mem_productive]
  refine and_congr_left fun _ => ⟨?_, fun hp => ⟨s, hs, hp⟩⟩
  rintro ⟨s', hs', hp⟩
  cases hs.symm.trans hs'
  exact hp

theorem lt_size_of_mem_kept (hw : a.WellFormed) (h : s ∈ a.kept) : s < a.size := by
  rcases mem_kept.1 h with hs | ⟨hs, -⟩
  · exact hw.initial_lt s hs
  · exact lt_size_of_mem_reachable hs

theorem mem_reachable_of_mem_kept (hw : a.WellFormed) (h : s ∈ a.kept) : s ∈ a.reachable := by
  rcases mem_kept.1 h with hs | ⟨hs, -⟩
  · exact (mem_reachable hw).2 ⟨s, hs, .refl⟩
  · exact hs

/-- Productive states on the way from the initial one are kept. -/
theorem mem_kept_of_moves (hw : a.WellFormed) (hs : a.initial = some s)
    (hst : ReflTransGen a.Moves s t) (ht : a.Productive t) : t ∈ a.kept :=
  (mem_kept_iff hs).2 (.inr ((mem_live_iff_of_initial hw hs).2 ⟨hst, ht⟩))

/-- A productive state that a kept one leads to is kept. -/
theorem mem_kept_of_move (hw : a.WellFormed) (hs : s ∈ a.kept) (hst : a.Moves s t)
    (ht : a.Productive t) : t ∈ a.kept := by
  obtain ⟨s₀, hs₀, hp⟩ := (mem_reachable hw).1 (mem_reachable_of_mem_kept hw hs)
  exact mem_kept_of_moves hw hs₀ (hp.tail hst) ht

theorem mem_kept_of_step (hw : a.WellFormed) (hs : s ∈ a.kept) (hst : a.step s c = some t)
    (ht : a.Productive t) : t ∈ a.kept := mem_kept_of_move hw hs (moves_of_step hst) ht

theorem productive_of_mem_kept (hw : a.WellFormed) (hs : a.initial = some s) (hp : a.Productive s)
    (ht : t ∈ a.kept) : a.Productive t := by
  rcases (mem_kept_iff hs).1 ht with rfl | ht
  · exact hp
  · exact ((mem_live_iff_of_initial hw hs).1 ht).2

/-- When nothing is accepted, the initial state alone takes part. -/
theorem eq_initial_of_mem_kept (hw : a.WellFormed) (hs : a.initial = some s) (hp : ¬ a.Productive s)
    (ht : t ∈ a.kept) : t = s := by
  refine ((mem_kept_iff hs).1 ht).resolve_right fun ht => ?_
  obtain ⟨hmoves, u, hu, htu⟩ := (mem_live_iff_of_initial hw hs).1 ht
  exact hp ⟨u, hu, hmoves.trans htu⟩

/-! ## Coarse partitions -/

/-- Whether kept states with one residual are in one block. -/
def Coarse (a : Automaton) (p : Partition) : Prop :=
  ∀ i, ∀ s ∈ p.block i, ∀ t ∈ a.kept, a.acceptsFrom s = a.acceptsFrom t → t ∈ p.block i

/-- To begin with, all that takes part and accepts is in one block, and all that does not in one. -/
theorem mem_block_initialPartition {i : Nat} (hs : s ∈ a.initialPartition.block i) (ht : t ∈ a.kept)
    (hacc : a.accepting s = a.accepting t) : t ∈ a.initialPartition.block i := by
  have hgroup : a.initialPartition.block i ∈ a.splitByAcceptance a.kept.toList := by
    rcases block_foldl_push (a.splitByAcceptance a.kept.toList) (Partition.empty a.size) i with h | h
    · exact h
    · have hempty : a.initialPartition.block i = [] := h.trans (block_of_le (Nat.zero_le i))
      rw [hempty] at hs
      cases hs
  have hcases := (List.mem_filter.1 hgroup).1
  simp only [List.mem_cons, List.not_mem_nil, or_false] at hcases
  rcases hcases with e | e <;> rw [e, List.mem_filter] at hs ⊢ <;> exact ⟨ht, hacc ▸ hs.2⟩

theorem coarse_initialPartition (a : Automaton) : a.Coarse a.initialPartition :=
  fun _ _ hs _ ht hst => mem_block_initialPartition hs ht (congrFun hst [])

variable {kept : State → Prop} {r : State → State → Prop}

/-- Kept states with one residual step into the same blocks of a coarse partition. -/
theorem Coarse.matches (hw : a.WellFormed) (hx : a.Exclusive)
    (hp : Placed a.size (· ∈ a.kept) r [] p) (h : a.Coarse p)
    (hprod : ∀ s ∈ a.kept, a.Productive s) (ht : t ∈ a.kept)
    (hst : a.acceptsFrom s = a.acceptsFrom t) : Matches Eq a p s a p t := by
  intro c s' i hs' hi
  have hblock : s' ∈ p.block i := (hp.blockOf? s' (by simp) i).1 hi
  have hkept : s' ∈ a.kept := (hp.kept s').2 (.inl ⟨i, hblock⟩)
  have hw' := (productive_iff hx).1 (hprod s' hkept)
  obtain ⟨t', ht', heq⟩ := exists_step_of_acceptsFrom_eq hst hs' hw'
  have hprod' : a.Productive t' := (productive_iff hx).2 (heq ▸ hw')
  have hblock' := h i s' hblock t' (mem_kept_of_step hw ht ht' hprod') heq
  exact ⟨t', i, ht', (hp.blockOf? t' (by simp) i).2 hblock', rfl⟩

theorem Coarse.signatureOf_eq (hw : a.WellFormed) (hx : a.Exclusive)
    (hi : ∃ s₀, a.initial = some s₀) (hp : Placed a.size (· ∈ a.kept) r [] p) (h : a.Coarse p)
    (hs : s ∈ a.kept) (ht : t ∈ a.kept) (hst : a.acceptsFrom s = a.acceptsFrom t) :
    a.signatureOf p s = a.signatureOf p t := by
  obtain ⟨s₀, hs₀⟩ := hi
  by_cases hprod : a.Productive s₀
  · have hall : ∀ s ∈ a.kept, a.Productive s := fun s hs => productive_of_mem_kept hw hs₀ hprod hs
    exact Automaton.signatureOf_eq (hx s) (hx t) (h.matches hw hx hp hall ht hst)
      (h.matches hw hx hp hall hs hst.symm)
  · rw [eq_initial_of_mem_kept hw hs₀ hprod hs, eq_initial_of_mem_kept hw hs₀ hprod ht]

/-- A split by signature does not part states with one residual. -/
theorem Coarse.splitBySignature (hw : a.WellFormed) (hx : a.Exclusive)
    (hi : ∃ s₀, a.initial = some s₀) (hp : Placed a.size (· ∈ a.kept) r [] p) {i : Nat}
    (hlt : i < p.size) (h : a.Coarse p) : a.Coarse (a.splitBySignature p i) := by
  intro j s hs t ht hst
  rcases block_splitBySignature (a := a) hlt j with heq | ⟨σ, hσ⟩
  · rw [heq] at hs ⊢
    exact h j s hs t ht hst
  · rw [hσ] at hs ⊢
    obtain ⟨hmem, hsig⟩ := List.mem_filter.1 hs
    have hkept : s ∈ a.kept := (hp.kept s).2 (.inl ⟨i, hmem⟩)
    have hsig' : a.signatureOf p t = σ :=
      (h.signatureOf_eq hw hx hi hp hkept ht hst).symm.trans (of_decide_eq_true hsig)
    exact List.mem_filter.2 ⟨h i s hmem t ht hst, decide_eq_true hsig'⟩

end PatternAutomata.Automaton
