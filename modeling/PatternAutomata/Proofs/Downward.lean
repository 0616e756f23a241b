import PatternAutomata.Proofs.Coarsening
import PatternAutomata.Proofs.Guarded.Minimize
import PatternAutomata.Session

/-!
# Minimizing where ranges run downwards

The test for determinism lets ranges through that run downwards, and minimizing asks for a label for each
merged span.  So a signature fails when such a range is not made up for by the labels that it is merged
with: `a-m` and `n-c` into one block read as `a-c`, but `z-a` on its own has no label.

This is the only thing that can go wrong on a deterministic automaton, and whether it does is settled by
any stable partition, as larger blocks only merge more:

    (∃ m, a.minimize = .ok m) ↔ ∃ p, a.Stable p ∧ a.Upward p              (exists_minimize_iff_upward)
    a.minimize = .error e → e names the end of a range that runs downwards between states that take part
                                                                              (exists_of_minimize_eq_error)
-/

namespace PatternAutomata.Automaton

open Relation PatternAutomata.Partition

variable {a : Automaton} {p q : Partition} {s t : State} {e : Misuse}

/-- Whether no merged label out of a state that takes part runs downwards. -/
def Upward (a : Automaton) (p : Partition) : Prop :=
  ∀ s ∈ a.kept, ∀ m ∈ a.signatureOf p s, m.1.Proper

/-! ## Larger blocks merge more -/

theorem Upward.of_refines {r : State → State → Prop} (hup : a.Upward p) (h : a.Stable p)
    (hd : a.isDeterministic = true) (hq : Placed a.size (· ∈ a.kept) r [] q) (hpq : p.Refines q) :
    a.Upward q := by
  obtain ⟨f, hf⟩ := hpq.exists_map h.placed hq
  exact fun s hs => proper_signatureOf_of_map hd hf (hup s hs)

theorem Upward.signature_eq (hup : a.Upward p) (hs : s ∈ a.kept) :
    a.signature p s = .ok (a.signatureOf p s) := signature_eq_ok_iff.2 ⟨rfl, hup s hs⟩

theorem Upward.proper_blockMoves {r : State → State → Prop} (hup : a.Upward p)
    (h : Placed a.size (· ∈ a.kept) r [] p) (i : Nat) : ∀ m ∈ a.blockMoves p i, m.1.Proper := by
  unfold blockMoves
  split
  · simp
  · next s rest hb => exact hup s (h.kept_of_mem_block (hb ▸ List.mem_cons_self))

theorem stable_of_settle (hw : a.WellFormed) (hs : a.initial = some s)
    (hp : a.settle a.size a.initialPartition = .ok p) : a.Stable p := by
  obtain ⟨⟨hplaced, -⟩, huni⟩ := settle_spec (Q := fun _ => True) (fun _ _ _ _ _ => trivial)
    (placed_initialPartition hw) trivial (size_lt_initialPartition hw hs) hp
  exact ⟨hplaced, huni⟩

/-- The refinement goes through partitions that a stable one refines, so it has their signatures. -/
theorem exists_settle_of_upward (hw : a.WellFormed) (hd : a.isDeterministic = true)
    (hs : a.initial = some s) (h : a.Stable p) (hup : a.Upward p) :
    ∃ q, a.settle a.size a.initialPartition = .ok q ∧ a.Stable q ∧ a.Upward q := by
  have hsplit : ∀ q i, Placed a.size (· ∈ a.kept) (fun s t => a.accepting s = a.accepting t) [] q →
      i < q.size → p.Refines q → p.Refines (a.splitBySignature q i) :=
    fun q i hq hi hpq => h.refines_splitBySignature hd hq hpq hi
  have hinitial := placed_initialPartition hw
  cases hq : a.settle a.size a.initialPartition with
  | ok q =>
    obtain ⟨⟨hplaced, hpq⟩, huni⟩ := settle_spec hsplit hinitial h.refines_initialPartition
      (size_lt_initialPartition hw hs) hq
    exact ⟨q, rfl, ⟨hplaced, huni⟩, hup.of_refines h hd hplaced hpq⟩
  | error e =>
    obtain ⟨q, j, ⟨hplaced, hpq⟩, t, ht, hfail⟩ :=
      exists_of_settle_eq_error hsplit hinitial h.refines_initialPartition hq
    rw [(hup.of_refines h hd hplaced hpq).signature_eq (hplaced.kept_of_mem_block ht)] at hfail
    cases hfail

theorem exists_minimize_of_upward (hw : a.WellFormed) (hd : a.isDeterministic = true)
    (hs : a.initial = some s) (h : a.Stable p) (hup : a.Upward p) : ∃ m, a.minimize = .ok m := by
  obtain ⟨q, hq, hstable, hup⟩ := exists_settle_of_upward hw hd hs h hup
  obtain ⟨first, hfirst⟩ := hstable.placed.exists_mem_block (mem_kept.2 (.inl hs))
  rw [minimize_of_initial_eq_some hd hs, hq, ok_bind, hstable.placed.blockOf?_eq_some_iff.2 hfirst]
  exact ⟨_, quotient_eq_of_forall fun i _ =>
    quotientMoves_eq_ok_iff.2 ⟨rfl, hup.proper_blockMoves hstable.placed i⟩⟩

/-! ## All blocks are met -/

/-- An arrow between states that take part leads from block to block, whatever its label is. -/
theorem Stable.leads_of_mem_arrows (h : a.Stable p) (hd : a.isDeterministic = true) {l : Label}
    (hl : (⟨l, t⟩ : Arrow) ∈ a.arrows s) {i j : Nat} (hs : s ∈ p.block i) (ht : t ∈ p.block j) :
    Exploration.Leads (a.blockMoves p) i j := by
  have hne : l ≠ .epsilon :=
    (isDeterministicAt_iff_pairwise.1 (isDeterministicAt_of_isDeterministic hd s)).1 _ hl
  obtain ⟨⟨lo, hi⟩, hb⟩ := Option.ne_none_iff_exists'.1 (mt Label.bounds?_eq_none_iff.1 hne)
  have hspan : (⟨lo, hi, j⟩ : Span Nat) ∈ sort (a.blockSpans p s) :=
    mem_sort.2 (mem_blockSpans.2 ⟨_, hl, hb, h.placed.blockOf?_eq_some_iff.2 ht⟩)
  obtain ⟨m, hm, htarget⟩ := Span.exists_target_mem_merge hspan
  rw [Exploration.Leads, (h.uniform i).blockMoves_eq hs]
  exact ⟨_, List.mem_map_of_mem hm, htarget⟩

/-- The block of each state that takes part is met on the way from the block of the initial one. -/
theorem Stable.reached (h : a.Stable p) (hw : a.WellFormed) (hd : a.isDeterministic = true)
    (hs : a.initial = some s) {first i : Nat} (hfirst : s ∈ p.block first) (ht : t ∈ a.kept)
    (hti : t ∈ p.block i) : ReflTransGen (Exploration.Leads (a.blockMoves p)) first i := by
  have hway : ∀ u, ReflTransGen a.Moves s u → a.Productive u → ∀ j, u ∈ p.block j →
      ReflTransGen (Exploration.Leads (a.blockMoves p)) first j := by
    intro u hu
    induction hu with
    | refl =>
      intro _ j hj
      cases h.placed.eq_of_mem_block hfirst hj
      exact .refl
    | @tail u v hu huv ih =>
      rintro ⟨w, hacc, hvw⟩ j hj
      have hprod : a.Productive u := ⟨w, hacc, .head huv hvw⟩
      obtain ⟨k, hk⟩ := h.placed.exists_mem_block (mem_kept_of_moves hw hs hu hprod)
      obtain ⟨l, hl⟩ := huv
      exact (ih hprod k hk).tail (h.leads_of_mem_arrows hd hl hk hj)
  rcases (mem_kept_iff hs).1 ht with rfl | hlive
  · cases h.placed.eq_of_mem_block hfirst hti
    exact .refl
  · obtain ⟨hmoves, hprod⟩ := (mem_live_iff_of_initial hw hs).1 hlive
    exact hway t hmoves hprod i hti

/-- So the quotient has asked for the signature of each block. -/
theorem Stable.upward_of_quotient (h : a.Stable p) (hw : a.WellFormed)
    (hd : a.isDeterministic = true) (hs : a.initial = some s) {first : Nat}
    (hfirst : s ∈ p.block first) {m : Automaton} (hm : a.quotient p first = .ok m) : a.Upward p := by
  rw [quotient_eq_explore] at hm
  obtain ⟨e, he, -⟩ := bind_eq_ok_iff.1 hm
  have hmoves : ∀ u i u' row, a.quotientMoves p u i = .ok (u', row) →
      row = a.blockMoves p i ∧ ∀ m ∈ a.blockMoves p i, m.1.Proper := by
    intro u i u' row hrow
    obtain ⟨rfl, hproper⟩ := quotientMoves_eq_ok_iff.1 hrow
    exact ⟨rfl, hproper⟩
  obtain ⟨rfl, hproper⟩ := Exploration.advance_eq_ok (e := Exploration.start first) hmoves
    (fun i _ hi => absurd hi (Nat.not_lt_zero i)) he
  have hexplored := explored_blockMoves h.placed (lt_size_of_mem_block hfirst)
  intro t ht
  obtain ⟨i, hi⟩ := h.placed.exists_mem_block ht
  obtain ⟨j, hj⟩ := hexplored.exists_key (h.reached hw hd hs hfirst ht hi)
  rw [← (h.uniform i).blockMoves_eq hi]
  exact hproper j i (hexplored.done ▸ (Array.getElem?_eq_some_iff.1 hj).1) hj

/-! ## The result, or what is in its way -/

/-- Without an initial state nothing takes part. -/
theorem not_mem_kept (hw : a.WellFormed) (hs : a.initial = none) : t ∉ a.kept := by
  intro ht
  obtain ⟨s, hs', -⟩ := (mem_reachable hw).1 (mem_reachable_of_mem_kept hw ht)
  rw [hs] at hs'
  cases hs'

theorem exists_minimize_iff_upward (hw : a.WellFormed) (hd : a.isDeterministic = true) :
    (∃ m, a.minimize = .ok m) ↔ ∃ p, a.Stable p ∧ a.Upward p := by
  cases hs : a.initial with
  | none =>
    refine ⟨fun _ => ⟨a.initialPartition, ⟨placed_initialPartition hw, fun i s hsi => ?_⟩,
      fun s hs' => absurd hs' (not_mem_kept hw hs)⟩, fun _ => ⟨_, minimize_of_initial_eq_none hd hs⟩⟩
    exact absurd ((placed_initialPartition hw).kept_of_mem_block hsi) (not_mem_kept hw hs)
  | some s =>
    constructor
    · rintro ⟨m, hm⟩
      rw [minimize_of_initial_eq_some hd hs] at hm
      obtain ⟨p, hp, hm⟩ := bind_eq_ok_iff.1 hm
      have h := stable_of_settle hw hs hp
      obtain ⟨first, hfirst⟩ := h.placed.exists_mem_block (mem_kept.2 (.inl hs))
      rw [h.placed.blockOf?_eq_some_iff.2 hfirst] at hm
      exact ⟨p, h, h.upward_of_quotient hw hd hs hfirst hm⟩
    · rintro ⟨p, h, hup⟩
      exact exists_minimize_of_upward hw hd hs h hup

theorem exists_of_quotient_eq_error {first : Nat} (he : a.quotient p first = .error e) :
    ∃ i, ∃ s ∈ p.block i, a.signature p s = .error e := by
  rw [quotient_eq_explore] at he
  rcases bind_eq_error_iff.1 he with he | ⟨_, -, ⟨⟩⟩
  obtain ⟨_, i, hfail⟩ := Exploration.exists_of_advance_eq_error he
  refine ⟨i, ?_⟩
  unfold quotientMoves at hfail
  split at hfail
  · cases hfail
  · next s rest hb =>
    refine ⟨s, hb ▸ List.mem_cons_self, ?_⟩
    cases hs : a.signature p s with
    | error e' =>
      rw [hs] at hfail
      cases hfail
      rfl
    | ok σ =>
      rw [hs] at hfail
      cases hfail

/-- Minimizing fails where a state that takes part has no signature. -/
theorem exists_signature_eq_error (hw : a.WellFormed) (hd : a.isDeterministic = true)
    (he : a.minimize = .error e) :
    ∃ q, Placed a.size (· ∈ a.kept) (fun s t => a.accepting s = a.accepting t) [] q ∧
      ∃ s ∈ a.kept, a.signature q s = .error e := by
  cases hs : a.initial with
  | none =>
    rw [minimize_of_initial_eq_none hd hs] at he
    cases he
  | some s =>
    rw [minimize_of_initial_eq_some hd hs] at he
    rcases bind_eq_error_iff.1 he with he | ⟨p, hp, he⟩
    · obtain ⟨q, j, ⟨hplaced, -⟩, t, ht, hfail⟩ := exists_of_settle_eq_error (Q := fun _ => True)
        (fun _ _ _ _ _ => trivial) (placed_initialPartition hw) trivial he
      exact ⟨q, hplaced, t, hplaced.kept_of_mem_block ht, hfail⟩
    · have h := (stable_of_settle hw hs hp).placed
      obtain ⟨first, hfirst⟩ := h.exists_mem_block (mem_kept.2 (.inl hs))
      rw [h.blockOf?_eq_some_iff.2 hfirst] at he
      obtain ⟨i, t, ht, hfail⟩ := exists_of_quotient_eq_error he
      exact ⟨p, h, t, h.kept_of_mem_block ht, hfail⟩

theorem exists_of_minimize_eq_error (hw : a.WellFormed) (hd : a.isDeterministic = true)
    (he : a.minimize = .error e) :
    ∃ lo hi, e = .emptyInterval lo hi ∧ hi.toNat < lo.toNat ∧
      ∃ s ∈ a.kept, ∃ lo' t, (⟨.range lo' hi, t⟩ : Arrow) ∈ a.arrows s ∧ t ∈ a.kept ∧
        lo.toNat ≤ lo'.toNat := by
  obtain ⟨q, hq, s, hs, hfail⟩ := exists_signature_eq_error hw hd he
  obtain ⟨lo, hi, rfl, hlt, ⟨l, t⟩, hr, ⟨b, hb⟩, lo', hbounds, hle⟩ :=
    exists_of_signature_eq_error hfail
  cases Label.eq_range_of_bounds? hbounds (Nat.lt_of_lt_of_le hlt hle)
  exact ⟨lo, hi, rfl, hlt, s, hs, lo', t, hr,
    hq.kept_of_mem_block (hq.blockOf?_eq_some_iff.1 hb), hle⟩

/-- On an automaton that passes the test for determinism, nothing that minimizing relies on fails but
the request for a label, and this fails only for a merged span that ends with a range between states that
take part and runs downwards as this range does.  It gives a result exactly when, in the blocks of some
stable partition, no merged span runs downwards. -/
theorem minimize_returns_iff {ε : Type} (hw : a.WellFormed) (hd : a.isDeterministic = true) :
    Guarded.minimize (ε := ε) a = Guarded.served a.minimize ∧
      ((∃ m, a.minimize = .ok m) ↔ ∃ p, a.Stable p ∧ a.Upward p) ∧
      ∀ e, a.minimize = .error e → ∃ lo hi, e = .emptyInterval lo hi ∧ hi.toNat < lo.toNat ∧
        ∃ s ∈ a.kept, ∃ lo' t, (⟨.range lo' hi, t⟩ : Arrow) ∈ a.arrows s ∧ t ∈ a.kept ∧
          lo.toNat ≤ lo'.toNat :=
  ⟨Guarded.minimize_eq hw hd, exists_minimize_iff_upward hw hd,
    fun _ he => exists_of_minimize_eq_error hw hd he⟩

/-- A range that runs downwards behind the label it is merged with, and one that leads to a dead end. -/
def folded : Automaton where
  nodes := #[
    { name := "S0", arrows := .ofList [⟨.range 'a' 'm', 1⟩, ⟨.range 'n' 'c', 1⟩] },
    { name := "S1", accepting := true, arrows := .ofList [⟨.range 'z' 'y', 2⟩] },
    { name := "S2" }]
  initial := some 0

/-- One range, which runs downwards. -/
def reversedLoop : Automaton where
  nodes := #[{ name := "S0", accepting := true, arrows := .ofList [⟨.range 'z' 'a', 0⟩] }]
  initial := some 0

theorem minimize_returns_iff_folded :
    (folded.WellFormed ∧ folded.isDeterministic = true ∧ ¬ folded.Forward ∧
      (∃ p, folded.Stable p ∧ folded.Upward p) ∧
      ∃ m, Guarded.minimize (ε := Empty) folded = .ok m) ∧
    (reversedLoop.WellFormed ∧ reversedLoop.isDeterministic = true ∧
      (¬ ∃ p, reversedLoop.Stable p ∧ reversedLoop.Upward p) ∧
      Guarded.minimize (ε := Empty) reversedLoop =
        .error (.panic (.misuse (.emptyInterval 'z' 'a')))) := by
  have hw : folded.WellFormed := by decide
  have hd : folded.isDeterministic = true := by decide
  have hw' : reversedLoop.WellFormed := by decide
  have hd' : reversedLoop.isDeterministic = true := by decide
  have hok : folded.minimize.isOk = true := by decide +kernel
  have herror : reversedLoop.minimize = .error (.emptyInterval 'z' 'a') := by decide +kernel
  obtain ⟨m, hm⟩ := exists_eq_ok_of_isOk hok
  obtain ⟨hguarded, hiff, -⟩ := minimize_returns_iff (ε := Empty) hw hd
  obtain ⟨hguarded', hiff', -⟩ := minimize_returns_iff (ε := Empty) hw' hd'
  refine ⟨⟨hw, hd, by decide, hiff.1 ⟨m, hm⟩, m, by rw [hguarded, hm]; rfl⟩, hw', hd', fun hp => ?_,
    by rw [hguarded', herror]; rfl⟩
  obtain ⟨m', hm'⟩ := hiff'.2 hp
  rw [herror] at hm'
  cases hm'

/-- Passing the test for determinism is not enough for a result, whatever commands have made the
automaton. -/
theorem not_exists_minimize_reversedLoop :
    ¬ ∀ (cs : List Command) (a : Automaton), a ∈ Session.run cs → a.isDeterministic = true →
      ∃ m, a.minimize = .ok m := by
  intro h
  have hmade : reversedLoop ∈ Session.run [.edit 0 (.addState none none),
      .edit 0 (.setAccepting 0 true), .edit 0 (.setInitial 0),
      .edit 0 (.addTransition 0 (.range 'z' 'a') 0)] := by decide
  obtain ⟨m, hm⟩ := h _ _ hmade (by decide)
  have herror : reversedLoop.minimize = .error (.emptyInterval 'z' 'a') := by decide +kernel
  rw [herror] at hm
  cases hm

end PatternAutomata.Automaton
