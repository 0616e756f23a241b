import Mathlib.Data.List.Count
import Mathlib.Order.WellFounded
import PatternAutomata.Automaton.Sweep
import PatternAutomata.Proofs.Span

/-!
# What the sweep cuts

`openAt spans c` lists the targets that the sweep holds open at `c`.  It counts: the spans to a target
that begin open it and those that end close it, unless none of them is open, so a target is open when
from some character on, up to `c`, more of its spans begin than end (`mem_openAt`).  This changes at
points only, and the open targets of the sweep keep the count (`Swept.pass`).  So the sweep cuts the
characters into separate spans:

    a span of `sweep spans` covers c and has the target set S
      ↔ openAt spans c ≠ [] ∧ S = OrderedSet.ofList (openAt spans c)       (exists_mem_sweep)

A span whose bounds descend ends before it begins.  It closes nothing, unless another span to its
target is open across its end, and once begun it stays open up to the last character
(`mem_openAt_iff`).  Without such spans the open targets are those of the spans that cover the
character (`mem_openAt_iff_covers`).
-/

namespace PatternAutomata

open StrictTotal

namespace Span

/-- How many spans to `t` begin from `q` on, up to `c`. -/
def begun (spans : List (Span State)) (t : State) (q c : Char) : Nat :=
  spans.countP fun s => decide (s.target = t ∧ q.toNat ≤ s.lo.toNat ∧ s.lo.toNat ≤ c.toNat)

/-- How many spans to `t` end from `q` on, before `c`. -/
def ended (spans : List (Span State)) (t : State) (q c : Char) : Nat :=
  spans.countP fun s => decide (s.target = t ∧ q.toNat ≤ s.hi.toNat ∧ s.hi.toNat < c.toNat)

/-- From some character on, the spans to `t` that begin up to `c` are more than those that end before
`c` and `n` others. -/
def Surplus (spans : List (Span State)) (c : Char) (t : State) (n : Nat) : Prop :=
  ∃ q : Char, q.toNat ≤ c.toNat ∧ ended spans t q c + n < begun spans t q c

/-- The targets that the sweep holds open at `c`: from one of their spans on, more of them begin than
end. -/
def openAt (spans : List (Span State)) (c : Char) : List State :=
  (spans.filter fun s => decide (s.lo.toNat ≤ c.toNat ∧
    ended spans s.target s.lo c < begun spans s.target s.lo c)).map target

variable {spans : List (Span State)}

theorem mem_points {p : Char} :
    p ∈ points spans ↔ ∃ s ∈ spans, p = s.lo ∨ Scalar.next? s.hi = some p := by
  simp [points]

/-- Nothing begins up to a character that lies before. -/
theorem begun_of_lt {t : State} {q c : Char} (h : c.toNat < q.toNat) : begun spans t q c = 0 := by
  refine List.countP_eq_zero.2 fun s _ => ?_
  rw [decide_eq_true_eq]
  omega

/-- Among the spans with a property there is one that begins first. -/
theorem exists_first {P : Span State → Prop} {s : Span State} (hs : s ∈ spans) (h : P s) :
    ∃ m ∈ spans, P m ∧ ∀ u ∈ spans, P u → m.lo.toNat ≤ u.lo.toNat := by
  obtain ⟨m, ⟨hm, hp⟩, hmin⟩ := (measure fun s : Span State => s.lo.toNat).wf.has_min
    {u | u ∈ spans ∧ P u} ⟨s, hs, h⟩
  exact ⟨m, hm, hp, fun u hu hpu => Nat.le_of_not_lt (hmin u ⟨hu, hpu⟩)⟩

/-- Of the spans to `t` that are counted the first will do as the beginning of the count. -/
theorem mem_openAt {c : Char} {t : State} : t ∈ openAt spans c ↔ Surplus spans c t 0 := by
  unfold openAt
  rw [List.mem_map]
  constructor
  · rintro ⟨s, hs, rfl⟩
    obtain ⟨hlo, hlt⟩ := of_decide_eq_true (List.mem_filter.1 hs).2
    exact ⟨s.lo, hlo, hlt⟩
  · rintro ⟨q, -, hlt⟩
    have hpos : 0 < begun spans t q c := by omega
    obtain ⟨s, hs, hp⟩ := List.countP_pos_iff.1 hpos
    obtain ⟨m, hm, ⟨hmt, hqm, hmc⟩, hmin⟩ := exists_first
      (P := fun s => s.target = t ∧ q.toNat ≤ s.lo.toNat ∧ s.lo.toNat ≤ c.toNat) hs
      (of_decide_eq_true hp)
    have hbegun : begun spans t q c ≤ begun spans t m.lo c := by
      refine List.countP_mono_left fun u hu h => ?_
      obtain ⟨hut, hqu, huc⟩ := of_decide_eq_true h
      exact decide_eq_true ⟨hut, hmin u hu ⟨hut, hqu, huc⟩, huc⟩
    have hended : ended spans t m.lo c ≤ ended spans t q c := by
      refine List.countP_mono_left fun u _ h => ?_
      obtain ⟨hut, hmu, huc⟩ := of_decide_eq_true h
      exact decide_eq_true ⟨hut, Nat.le_trans hqm hmu, huc⟩
    refine ⟨m, List.mem_filter.2 ⟨hm, decide_eq_true ⟨hmc, ?_⟩⟩, hmt⟩
    rw [hmt]
    omega

/-! ## Between points -/

/-- No point lies behind `lo` up to `c`. -/
def Clear (spans : List (Span State)) (lo c : Char) : Prop :=
  ∀ p ∈ points spans, lo.toNat < p.toNat → c.toNat < p.toNat

theorem Clear.lo_le {lo c : Char} (h : Clear spans lo c) {s : Span State} (hs : s ∈ spans)
    (hsc : s.lo.toNat ≤ c.toNat) : s.lo.toNat ≤ lo.toNat := by
  have := h s.lo (mem_points.2 ⟨s, hs, .inl rfl⟩)
  omega

theorem Clear.le_hi {lo c : Char} (h : Clear spans lo c) {s : Span State} (hs : s ∈ spans)
    (hsl : lo.toNat ≤ s.hi.toNat) : c.toNat ≤ s.hi.toNat := by
  cases hn : Scalar.next? s.hi with
  | none =>
    rw [Scalar.next?_eq_none_iff.1 hn]
    exact Scalar.ordinal_le_iff.1 (Scalar.ordinal_le_last c)
  | some q =>
    have hq := @Scalar.lt_iff_of_next? _ _ q hn
    have hc := @Scalar.lt_iff_of_next? _ _ c hn
    have := h q (mem_points.2 ⟨s, hs, .inr hn⟩)
    omega

/-- Between points the sweep holds the same targets open. -/
theorem surplus_iff_of_clear {lo c : Char} (h : Clear spans lo c) (hc : lo.toNat ≤ c.toNat)
    (t : State) (n : Nat) : Surplus spans c t n ↔ Surplus spans lo t n := by
  have hbegun : ∀ q, begun spans t q c = begun spans t q lo := fun q => by
    refine List.countP_congr fun s hs => ?_
    have hle := h.lo_le hs
    simp only [decide_eq_true_eq]
    refine and_congr_right fun _ => and_congr_right fun _ => ?_
    omega
  have hended : ∀ q, q.toNat ≤ lo.toNat → ended spans t q c = ended spans t q lo := fun q hq => by
    refine List.countP_congr fun s hs => ?_
    have hle := h.le_hi hs
    simp only [decide_eq_true_eq]
    refine and_congr_right fun _ => and_congr_right fun _ => ?_
    omega
  constructor
  · rintro ⟨q, -, hlt⟩
    have hq : q.toNat ≤ lo.toNat := by
      by_contra hne
      rw [hbegun, begun_of_lt (Nat.lt_of_not_le hne)] at hlt
      omega
    rw [hbegun, hended q hq] at hlt
    exact ⟨q, hq, hlt⟩
  · rintro ⟨q, hq, hlt⟩
    rw [← hbegun, ← hended q hq] at hlt
    exact ⟨q, by omega, hlt⟩

/-! ## Counting -/

theorem count_startingAt (t : State) (p : Char) :
    (startingAt spans p).count t =
      spans.countP fun s => decide (s.target = t ∧ s.lo = p) := by
  unfold startingAt
  rw [List.count, List.countP_map, List.countP_filter]
  refine List.countP_congr fun s _ => ?_
  simp

theorem count_endingBefore (t : State) (p : Char) :
    (endingBefore spans p).count t =
      spans.countP fun s => decide (s.target = t ∧ Scalar.next? s.hi = some p) := by
  unfold endingBefore
  rw [List.count, List.countP_map, List.countP_filter]
  refine List.countP_congr fun s _ => ?_
  simp

theorem count_pass (opened : List State) (t : State) (p : Char) :
    (pass spans opened p).count t =
      opened.count t - (endingBefore spans p).count t + (startingAt spans p).count t := by
  unfold pass
  rw [← List.diff_eq_foldl, List.count_append, List.count_diff]

/-- Counting what passes one of two tests that exclude each other. -/
theorem countP_eq_add {α : Type} {p q r : α → Prop} [DecidablePred p] [DecidablePred q]
    [DecidablePred r] {l : List α} (h : ∀ x ∈ l, p x ↔ q x ∨ r x) (hqr : ∀ x ∈ l, q x → ¬r x) :
    l.countP (fun x => decide (p x)) =
      l.countP (fun x => decide (q x)) + l.countP (fun x => decide (r x)) := by
  rw [List.countP_eq_countP_filter_add l _ fun x => decide (q x), List.countP_filter,
    List.countP_filter]
  congr 1
  · refine List.countP_congr fun x hx => ?_
    have := h x hx
    simp only [Bool.and_eq_true, decide_eq_true_eq]
    tauto
  · refine List.countP_congr fun x hx => ?_
    have := h x hx
    have := hqr x hx
    simp only [Bool.and_eq_true, Bool.not_eq_true', decide_eq_true_eq, decide_eq_false_iff_not]
    tauto

/-- Nothing ends in between. -/
theorem ended_self (t : State) (c : Char) : ended spans t c c = 0 := by
  refine List.countP_eq_zero.2 fun s _ => ?_
  rw [decide_eq_true_eq]
  omega

/-! ## From one point to the next -/

section Next

variable {lo p : Char} (hp : lo.toNat < p.toNat)
  (hclear : ∀ q ∈ points spans, lo.toNat < q.toNat → p.toNat ≤ q.toNat)

include hp hclear

theorem begun_next (t : State) {q : Char} (hq : q.toNat ≤ p.toNat) :
    begun spans t q p = begun spans t q lo + (startingAt spans p).count t := by
  rw [count_startingAt]
  refine countP_eq_add (fun s hs => ?_) fun s hs hq he => ?_
  · have := hclear s.lo (mem_points.2 ⟨s, hs, .inl rfl⟩)
    rw [← and_or_left, ← Char.toNat_inj]
    refine and_congr_right fun _ => ?_
    omega
  · rw [he.2] at hq
    omega

theorem ended_next (t : State) {q : Char} (hq : q.toNat ≤ lo.toNat) :
    ended spans t q p = ended spans t q lo + (endingBefore spans p).count t := by
  rw [count_endingBefore]
  refine countP_eq_add (fun s hs => ?_) fun s hs hq he => ?_
  · have hend : Scalar.next? s.hi = some p ↔ lo.toNat ≤ s.hi.toNat ∧ s.hi.toNat < p.toNat := by
      constructor
      · intro h
        have h1 := (Scalar.lt_iff_of_next? (e := lo) h)
        have h2 := (Scalar.lt_iff_of_next? (e := p) h)
        omega
      · rintro ⟨h1, h2⟩
        cases hn : Scalar.next? s.hi with
        | none =>
          have := Scalar.ordinal_le_iff.1 (Scalar.ordinal_le_last p)
          rw [← Scalar.next?_eq_none_iff.1 hn] at this
          omega
        | some d =>
          have h3 := (Scalar.lt_iff_of_next? (e := lo) hn)
          have h4 := (Scalar.lt_iff_of_next? (e := p) hn)
          have h5 := hclear d (mem_points.2 ⟨s, hs, .inr hn⟩)
          rw [Option.some.injEq, ← Char.toNat_inj]
          omega
    rw [← and_or_left, hend]
    refine and_congr_right fun _ => ?_
    omega
  · have := Scalar.lt_iff_of_next? (e := lo) he.2
    omega

theorem surplus_next (t : State) (n : Nat) :
    Surplus spans p t n ↔ n < (startingAt spans p).count t ∨
      ∃ q : Char, q.toNat ≤ lo.toNat ∧ ended spans t q lo + (endingBefore spans p).count t + n <
        begun spans t q lo + (startingAt spans p).count t := by
  constructor
  · rintro ⟨q, hq, h⟩
    rw [begun_next hp hclear t hq] at h
    by_cases hql : q.toNat ≤ lo.toNat
    · rw [ended_next hp hclear t hql] at h
      exact .inr ⟨q, hql, h⟩
    · rw [begun_of_lt (Nat.lt_of_not_le hql)] at h
      exact .inl (by omega)
  · rintro (h | ⟨q, hq, h⟩)
    · refine ⟨p, Nat.le_refl _, ?_⟩
      rw [ended_self, begun_next hp hclear t (Nat.le_refl _)]
      omega
    · refine ⟨q, by omega, ?_⟩
      rw [begun_next hp hclear t (by omega), ended_next hp hclear t hq]
      exact h

/-- Passing the next point keeps the count of open targets. -/
theorem count_pass_next {opened : List State}
    (ho : ∀ t n, n < opened.count t ↔ Surplus spans lo t n) (t : State) (n : Nat) :
    n < (pass spans opened p).count t ↔ Surplus spans p t n := by
  rw [surplus_next hp hclear, count_pass]
  by_cases hn : n < (startingAt spans p).count t
  · exact iff_of_true (by omega) (.inl hn)
  · rw [or_iff_right hn]
    have hopen := ho t (n - (startingAt spans p).count t + (endingBefore spans p).count t)
    have hcount : n < opened.count t - (endingBefore spans p).count t +
        (startingAt spans p).count t ↔
        n - (startingAt spans p).count t + (endingBefore spans p).count t < opened.count t := by
      omega
    rw [hcount, hopen]
    refine exists_congr fun q => and_congr_right fun _ => ?_
    omega

end Next

/-- At the first point only what begins there is open. -/
theorem count_pass_first {p : Char} (hfirst : ∀ q ∈ points spans, p.toNat ≤ q.toNat) (t : State)
    (n : Nat) : n < (pass spans [] p).count t ↔ Surplus spans p t n := by
  have hbegun : ∀ q : Char, q.toNat ≤ p.toNat →
      begun spans t q p = (startingAt spans p).count t := fun q hq => by
    rw [count_startingAt]
    refine List.countP_congr fun s hs => ?_
    have hle := hfirst s.lo (mem_points.2 ⟨s, hs, .inl rfl⟩)
    simp only [decide_eq_true_eq]
    refine and_congr_right fun _ => ?_
    rw [← Char.toNat_inj]
    omega
  rw [count_pass, List.count_nil, Nat.zero_sub, Nat.zero_add]
  constructor
  · intro h
    refine ⟨p, Nat.le_refl _, ?_⟩
    rwa [ended_self, Nat.zero_add, hbegun p (Nat.le_refl _)]
  · rintro ⟨q, hq, h⟩
    rw [hbegun q hq] at h
    omega

/-! ## The sweep -/

theorem mem_between {opened : List State} {lo hi : Char} {m : Span StateSet} :
    m ∈ between opened lo hi ↔ opened ≠ [] ∧ m = ⟨lo, hi, OrderedSet.ofList opened⟩ := by
  unfold between
  split
  · next h => simp [List.isEmpty_iff.1 h]
  · next h => simp [List.isEmpty_iff] at h; simp [h]

/-- Where the sweep stands: the points to pass lie behind `lo` in order, and a target is open as often
as more of its spans begin up to `lo` than end. -/
structure Swept (spans : List (Span State)) (opened : List State) (lo : Char) (ps : List Char) :
    Prop where
  ascending : (lo :: ps).Pairwise lt
  points : ∀ p ∈ points spans, lo.toNat < p.toNat → p ∈ ps
  opened : ∀ t n, n < opened.count t ↔ Surplus spans lo t n

theorem Swept.clear {opened : List State} {lo p c : Char} {ps : List Char}
    (h : Swept spans opened lo (p :: ps)) (hc : c.toNat < p.toNat) : Clear spans lo c := by
  intro q hq hlo
  rcases List.mem_cons.1 (h.points q hq hlo) with rfl | hq
  · exact hc
  · have := (List.pairwise_cons.1 h.ascending.of_cons).1 q hq
    exact Nat.lt_trans hc this

theorem Swept.pass {opened : List State} {lo p : Char} {ps : List Char}
    (h : Swept spans opened lo (p :: ps)) : Swept spans (pass spans opened p) p ps := by
  have hp : lo.toNat < p.toNat := (List.pairwise_cons.1 h.ascending).1 p (by simp)
  have hps := (List.pairwise_cons.1 h.ascending.of_cons).1
  refine ⟨h.ascending.of_cons, fun q hq hpq => ?_,
    count_pass_next hp (fun q hq hlo => ?_) h.opened⟩
  · rcases List.mem_cons.1 (h.points q hq (by omega)) with rfl | hq
    · omega
    · exact hq
  · rcases List.mem_cons.1 (h.points q hq hlo) with rfl | hq
    · exact Nat.le_refl _
    · exact Nat.le_of_lt (hps q hq)

theorem Swept.mem_opened {opened : List State} {lo c : Char} {ps : List Char}
    (h : Swept spans opened lo ps) (hc : Clear spans lo c) (hlo : lo.toNat ≤ c.toNat) {t : State} :
    t ∈ opened ↔ t ∈ openAt spans c := by
  rw [mem_openAt, surplus_iff_of_clear hc hlo, ← h.opened, List.count_pos_iff]

/-- The part of the sweep up to the next point. -/
theorem exists_mem_between {opened : List State} {lo hi c : Char} {ps : List Char} {S : StateSet}
    (h : Swept spans opened lo ps) (hc : Clear spans lo hi) :
    (∃ m ∈ between opened lo hi, m.covers c = true ∧ m.target = S) ↔
      (lo.toNat ≤ c.toNat ∧ c.toNat ≤ hi.toNat) ∧ openAt spans c ≠ [] ∧
        S = OrderedSet.ofList (openAt spans c) := by
  have hmem : lo.toNat ≤ c.toNat → c.toNat ≤ hi.toNat → ∀ t, t ∈ opened ↔ t ∈ openAt spans c :=
    fun hlo hch t => h.mem_opened (fun q hq hlq => Nat.lt_of_le_of_lt hch (hc q hq hlq)) hlo
  simp only [mem_between]
  constructor
  · rintro ⟨_, ⟨hne, rfl⟩, hcov, rfl⟩
    obtain ⟨hlo, hhi⟩ := covers_iff.1 hcov
    obtain ⟨t, ht⟩ := List.exists_mem_of_ne_nil _ hne
    exact ⟨⟨hlo, hhi⟩, List.ne_nil_of_mem ((hmem hlo hhi t).1 ht),
      OrderedSet.ofList_eq_ofList_iff.2 (hmem hlo hhi)⟩
  · rintro ⟨⟨hlo, hhi⟩, hne, rfl⟩
    obtain ⟨t, ht⟩ := List.exists_mem_of_ne_nil _ hne
    exact ⟨_, ⟨List.ne_nil_of_mem ((hmem hlo hhi t).2 ht), rfl⟩, covers_iff.2 ⟨hlo, hhi⟩,
      OrderedSet.ofList_eq_ofList_iff.2 (hmem hlo hhi)⟩

theorem exists_prev? {lo p : Char} (h : lo.toNat < p.toNat) : ∃ hi, Scalar.prev? p = some hi := by
  unfold Scalar.prev?
  have := Scalar.ordinal_lt_iff.2 h
  rw [if_neg (by omega)]
  exact ⟨_, rfl⟩

theorem exists_mem_sweepFrom {opened : List State} {lo : Char} {ps : List Char}
    (h : Swept spans opened lo ps) {c : Char} {S : StateSet} :
    (∃ m ∈ sweepFrom spans opened lo ps, m.covers c = true ∧ m.target = S) ↔
      lo.toNat ≤ c.toNat ∧ openAt spans c ≠ [] ∧ S = OrderedSet.ofList (openAt spans c) := by
  induction ps generalizing opened lo with
  | nil =>
    have hclear : Clear spans lo Scalar.last := fun q hq hlo => by simpa using h.points q hq hlo
    rw [sweepFrom, exists_mem_between h hclear]
    have := Scalar.ordinal_le_iff.1 (Scalar.ordinal_le_last c)
    rw [and_iff_left this]
  | cons p ps ih =>
    have hp : lo.toNat < p.toNat := (List.pairwise_cons.1 h.ascending).1 p (by simp)
    obtain ⟨hi, hprev⟩ := exists_prev? hp
    have hhi := @Scalar.lt_iff_of_prev? hi p
    have hb := exists_mem_between (c := c) (S := S) h (h.clear ((hhi hprev).2 (Nat.le_refl _)))
    have hr := ih h.pass
    have hc := @hhi c hprev
    simp only [sweepFrom, hprev, List.mem_append, or_and_right, exists_or, hb, hr]
    rw [← or_and_right, ← hc]
    refine and_congr_left fun _ => ?_
    omega

theorem separate_sweepFrom {opened : List State} {lo : Char} {ps : List Char}
    (h : (lo :: ps).Pairwise lt) :
    Separate (sweepFrom spans opened lo ps) ∧
      ∀ m ∈ sweepFrom spans opened lo ps, lo.toNat ≤ m.lo.toNat := by
  induction ps generalizing opened lo with
  | nil =>
    have hl := Scalar.ordinal_le_iff.1 (Scalar.ordinal_le_last lo)
    unfold sweepFrom between
    split
    · exact ⟨.nil, by simp⟩
    · exact ⟨.cons hl (by simp) .nil, by simp⟩
  | cons p ps ih =>
    have hp : lo.toNat < p.toNat := (List.pairwise_cons.1 h).1 p (by simp)
    obtain ⟨hi, hprev⟩ := exists_prev? hp
    have hlh := (@Scalar.lt_iff_of_prev? hi p lo hprev).1 hp
    have hhp := (@Scalar.lt_iff_of_prev? hi p hi hprev).2 (Nat.le_refl _)
    obtain ⟨hs, hb⟩ := ih h.of_cons
    unfold sweepFrom between
    simp only [hprev]
    split
    · exact ⟨hs, fun m hm => Nat.le_trans (Nat.le_of_lt hp) (hb m hm)⟩
    · refine ⟨.cons hlh (fun m hm => Nat.lt_of_lt_of_le hhp (hb m hm)) hs, fun m hm => ?_⟩
      rcases List.mem_cons.1 hm with rfl | hm
      · exact Nat.le_refl _
      · exact Nat.le_trans (Nat.le_of_lt hp) (hb m hm)

/-- The sweep begins at the least point. -/
theorem swept_first {p : Char} {ps : List Char} (h : (points spans).toList = p :: ps) :
    Swept spans (pass spans [] p) p ps := by
  have hasc := h ▸ (points spans).ascending
  have hmem : ∀ q, q ∈ points spans ↔ q = p ∨ q ∈ ps := fun q => by
    rw [OrderedSet.mem_def, h, List.mem_cons]
  refine ⟨hasc, fun q hq hpq => ?_, count_pass_first fun q hq => ?_⟩
  · rcases (hmem q).1 hq with rfl | hq
    · omega
    · exact hq
  · rcases (hmem q).1 hq with rfl | hq
    · exact Nat.le_refl _
    · exact Nat.le_of_lt ((List.pairwise_cons.1 hasc).1 q hq)

theorem separate_sweep : Separate (sweep spans) := by
  unfold sweep
  split
  · exact .nil
  · next h => exact (separate_sweepFrom (h ▸ (points spans).ascending)).1

theorem exists_mem_sweep {c : Char} {S : StateSet} :
    (∃ m ∈ sweep spans, m.covers c = true ∧ m.target = S) ↔
      openAt spans c ≠ [] ∧ S = OrderedSet.ofList (openAt spans c) := by
  have hlo : ∀ s ∈ spans, s.lo ∈ points spans := fun s hs => mem_points.2 ⟨s, hs, .inl rfl⟩
  unfold sweep
  split
  · next h =>
    have e : spans = [] := List.eq_nil_iff_forall_not_mem.2 fun s hs => by
      have := hlo s hs
      rw [OrderedSet.mem_def, h] at this
      cases this
    simp [e, openAt]
  · next p ps h =>
    rw [exists_mem_sweepFrom (swept_first h)]
    refine and_iff_right_of_imp fun hne => ?_
    obtain ⟨t, ht⟩ := List.exists_mem_of_ne_nil _ hne.1
    obtain ⟨s, hs, -⟩ := List.mem_map.1 ht
    obtain ⟨hs, hsc⟩ := List.mem_filter.1 hs
    refine Nat.le_trans ?_ (of_decide_eq_true hsc).1
    have hs' := hlo s hs
    rw [OrderedSet.mem_def, h] at hs'
    rcases List.mem_cons.1 hs' with e | hs'
    · exact e ▸ Nat.le_refl _
    · have hasc := h ▸ (points spans).ascending
      exact Nat.le_of_lt ((List.pairwise_cons.1 hasc).1 _ hs')

/-! ## Spans whose bounds descend -/

/-- No span to `t` is open across the end of one whose bounds descend: what begins up to there ends up
to there. -/
def Unbridged (spans : List (Span State)) (t : State) : Prop :=
  ∀ r ∈ spans, r.target = t → r.hi.toNat < r.lo.toNat →
    ∀ s ∈ spans, s.target = t → s.lo.toNat ≤ r.hi.toNat →
      s.lo.toNat ≤ s.hi.toNat ∧ s.hi.toNat ≤ r.hi.toNat

/-- Where more spans to `t` have begun than ended, one has begun and not ended. -/
theorem Surplus.exists_open {c : Char} {t : State} (h : Surplus spans c t 0) :
    ∃ s ∈ spans, s.target = t ∧ s.lo.toNat ≤ c.toNat ∧
      (s.lo.toNat ≤ s.hi.toNat → c.toNat ≤ s.hi.toNat) := by
  obtain ⟨q, -, hlt⟩ := h
  by_contra hne
  have hle : begun spans t q c ≤ ended spans t q c := by
    refine List.countP_mono_left fun s hs hb => ?_
    obtain ⟨hst, hqs, hsc⟩ := of_decide_eq_true hb
    have hends : ¬(s.lo.toNat ≤ s.hi.toNat → c.toNat ≤ s.hi.toNat) := fun hopen =>
      hne ⟨s, hs, hst, hsc, hopen⟩
    exact decide_eq_true ⟨hst, by omega, by omega⟩
  omega

/-- More spans to `t` have begun from `q` on than ended, when those that ended began there as well and one
that began has not ended. -/
theorem ended_lt_begun {q c : Char} {t : State}
    (hends : ∀ u ∈ spans, u.target = t → q.toNat ≤ u.hi.toNat → u.hi.toNat < c.toNat →
      q.toNat ≤ u.lo.toNat ∧ u.lo.toNat ≤ c.toNat)
    {s : Span State} (hs : s ∈ spans) (hst : s.target = t) (hqs : q.toNat ≤ s.lo.toNat)
    (hsc : s.lo.toNat ≤ c.toNat) (hopen : ¬(q.toNat ≤ s.hi.toNat ∧ s.hi.toNat < c.toNat)) :
    ended spans t q c < begun spans t q c := by
  have hsplit : begun spans t q c = ended spans t q c +
      spans.countP fun u => decide (u.target = t ∧
        (q.toNat ≤ u.lo.toNat ∧ u.lo.toNat ≤ c.toNat) ∧
          ¬(q.toNat ≤ u.hi.toNat ∧ u.hi.toNat < c.toNat)) := by
    refine countP_eq_add (fun u hu => ?_) fun u _ he hr => hr.2.2 he.2
    rw [← and_or_left]
    refine and_congr_right fun hut => ?_
    have hbegun := hends u hu hut
    omega
  have hpos : 0 < spans.countP fun u => decide (u.target = t ∧
      (q.toNat ≤ u.lo.toNat ∧ u.lo.toNat ≤ c.toNat) ∧
        ¬(q.toNat ≤ u.hi.toNat ∧ u.hi.toNat < c.toNat)) :=
    List.countP_pos_iff.2 ⟨s, hs, decide_eq_true ⟨hst, ⟨hqs, hsc⟩, hopen⟩⟩
  omega

/-- A span whose bounds descend never ends. -/
theorem mem_openAt_iff {c : Char} {t : State} (h : Unbridged spans t) :
    t ∈ openAt spans c ↔ ∃ s ∈ spans, s.target = t ∧ s.lo.toNat ≤ c.toNat ∧
      (s.lo.toNat ≤ s.hi.toNat → c.toNat ≤ s.hi.toNat) := by
  rw [mem_openAt]
  constructor
  · exact Surplus.exists_open
  · rintro ⟨s, hs, hst, hsc, hopen⟩
    -- The count runs from the first span to `t` that begins behind all ends that come too early.
    have hbehind : ∀ r ∈ spans, r.target = t → r.hi.toNat < r.lo.toNat →
        r.hi.toNat < c.toNat → r.hi.toNat < s.lo.toNat := fun r hr hrt hrev hrc => by
      have hbridge := h r hr hrt hrev s hs hst
      omega
    obtain ⟨m, hm, ⟨hmt, hmc, hmr⟩, hmin⟩ := exists_first
      (P := fun m => m.target = t ∧ m.lo.toNat ≤ c.toNat ∧ ∀ r ∈ spans, r.target = t →
        r.hi.toNat < r.lo.toNat → r.hi.toNat < c.toNat → r.hi.toNat < m.lo.toNat)
      hs ⟨hst, hsc, hbehind⟩
    have hends : ∀ u ∈ spans, u.target = t → m.lo.toNat ≤ u.hi.toNat → u.hi.toNat < c.toNat →
        m.lo.toNat ≤ u.lo.toNat ∧ u.lo.toNat ≤ c.toNat := fun u hu hut hmu huc => by
      have hup : u.lo.toNat ≤ u.hi.toNat := by
        by_contra hrev
        have hbefore := hmr u hu hut (Nat.lt_of_not_le hrev) huc
        omega
      refine ⟨hmin u hu ⟨hut, by omega, fun r hr hrt hrev hrc => ?_⟩, by omega⟩
      have hbridge := h r hr hrt hrev u hu hut
      have hbefore := hmr r hr hrt hrev hrc
      omega
    have hsr := hmr s hs hst
    exact ⟨m.lo, hmc, ended_lt_begun hends hs hst (hmin s hs ⟨hst, hsc, hbehind⟩) hsc (by omega)⟩

/-- Without spans whose bounds descend, the open targets are those of the spans that cover the
character. -/
theorem mem_openAt_iff_covers (hle : ∀ s ∈ spans, s.lo.toNat ≤ s.hi.toNat) {c : Char} {t : State} :
    t ∈ openAt spans c ↔ ∃ s ∈ spans, s.covers c = true ∧ s.target = t := by
  have hbridge : Unbridged spans t := fun r hr _ hrev => by
    have := hle r hr
    omega
  rw [mem_openAt_iff hbridge]
  refine exists_congr fun s => and_congr_right fun hs => ?_
  rw [covers_iff, and_comm]
  refine and_congr_left fun _ => and_congr_right fun _ => ?_
  exact ⟨fun h => h (hle s hs), fun h _ => h⟩

end Span

end PatternAutomata
