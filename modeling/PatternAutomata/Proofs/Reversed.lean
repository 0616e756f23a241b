import PatternAutomata.Proofs.Construction
import PatternAutomata.Proofs.Determinism
import PatternAutomata.Proofs.Determinize

/-!
# Ranges whose bounds descend

Such a label admits nothing, and a simulation passes over it (`acceptsByAnyPath_connect`).  The sweep
of the subset construction does not: it comes to the end of the label before its beginning, so what
the beginning opens is never closed.  Unless another label to the same state is open across the early
end, the label `z-a` works there as a label from `z` up to the last character would
(`sweepStep_connect`).
-/

namespace PatternAutomata.Automaton

variable {a : Automaton} {s t : State} {l : Label} {set : StateSet} {c : Char}

/-! ## One more arrow -/

theorem WellFormed.connect (hw : a.WellFormed) (hs : s < a.size) (ht : t < a.size) :
    (a.connect s l t).WellFormed := by
  refine ⟨fun u r hr => ?_, fun i hi => ?_⟩
  · rw [size_connect]
    rcases (mem_arrows_connect hs).1 hr with ⟨-, rfl⟩ | hr
    · exact ht
    · exact hw.dest_lt u r hr
  · rw [size_connect]
    exact hw.initial_lt i hi

theorem closure_connect (hw : a.WellFormed) (hs : s < a.size) (ht : t < a.size)
    (hl : l ≠ .epsilon) : (a.connect s l t).closure = a.closure := by
  have hempty : (a.connect s l t).EmptyMove = a.EmptyMove := by
    funext u v
    refine propext ((mem_arrows_connect hs).trans (or_iff_right ?_))
    rintro ⟨-, e⟩
    cases e
    exact hl rfl
  funext seeds
  apply OrderedSet.ext
  intro u
  rw [mem_closure (hw.connect hs ht), mem_closure hw, hempty, size_connect]

theorem acceptsSet_connect : (a.connect s l t).acceptsSet set = a.acceptsSet set := by
  rw [Bool.eq_iff_iff, mem_acceptsSet, mem_acceptsSet]
  simp only [accepting_connect]

theorem mem_move_connect (hs : s < a.size) {u : State} :
    u ∈ (a.connect s l t).move set c ↔
      (s ∈ set ∧ u = t ∧ l.admits c = true) ∨ u ∈ a.move set c := by
  simp only [mem_move, mem_arrows_connect hs]
  constructor
  · rintro ⟨v, hv, m, ⟨rfl, e⟩ | hm, hc⟩
    · cases e
      exact .inl ⟨hv, rfl, hc⟩
    · exact .inr ⟨v, hv, m, hm, hc⟩
  · rintro (⟨hv, rfl, hc⟩ | ⟨v, hv, m, hm, hc⟩)
    · exact ⟨s, hv, l, .inl ⟨rfl, rfl⟩, hc⟩
    · exact ⟨v, hv, m, .inr hm, hc⟩

theorem mem_spans_connect (hs : s < a.size) {m : Span State} :
    m ∈ (a.connect s l t).spans set ↔
      (s ∈ set ∧ m.target = t ∧ l.bounds? = some (m.lo, m.hi)) ∨ m ∈ a.spans set := by
  obtain ⟨lo, hi, u⟩ := m
  simp only [mem_spans, mem_arrows_connect hs]
  constructor
  · rintro ⟨v, hv, n, ⟨rfl, e⟩ | hn, hb⟩
    · cases e
      exact .inl ⟨hv, rfl, hb⟩
    · exact .inr ⟨v, hv, n, hn, hb⟩
  · rintro (⟨hv, rfl, hb⟩ | ⟨v, hv, n, hn, hb⟩)
    · exact ⟨s, hv, l, .inl ⟨rfl, rfl⟩, hb⟩
    · exact ⟨v, hv, n, .inr hn, hb⟩

/-- A label that admits nothing does not change what texts can lead to. -/
theorem acceptsByAnyPath_connect (hw : a.WellFormed) (hs : s < a.size) (ht : t < a.size)
    (hl : l ≠ .epsilon) (hnone : ∀ c, l.admits c = false) (w : List Char) :
    (a.connect s l t).acceptsByAnyPath w = a.acceptsByAnyPath w := by
  have hstep : (a.connect s l t).stepSet = a.stepSet := by
    funext set c
    rw [stepSet, stepSet, closure_connect hw hs ht hl]
    refine closure_congr fun u => ?_
    rw [mem_move_connect hs, or_iff_right]
    rintro ⟨-, -, hc⟩
    rw [hnone c] at hc
    cases hc
  have hsame : (a.connect s l t).initial = a.initial := rfl
  cases hi : a.initial with
  | none =>
    rw [acceptsByAnyPath, acceptsByAnyPath, simulate, simulate, hsame, hi, Option.map_none,
      Option.map_none]
  | some i =>
    rw [acceptsByAnyPath_eq_acceptsSet (hsame.trans hi), acceptsByAnyPath_eq_acceptsSet hi, runSet,
      hstep, closure_connect hw hs ht hl, acceptsSet_connect, runSet]

theorem addTransition_eq_ok {b : Automaton} (h : a.addTransition s l t = .ok b) :
    s < a.size ∧ t < a.size ∧ b = a.connect s l t := by
  unfold addTransition at h
  split at h
  · cases h
  · next hs =>
    split at h
    · cases h
    · next ht =>
      cases h
      exact ⟨Decidable.not_not.1 hs, Decidable.not_not.1 ht, rfl⟩

/-! ## A range that the sweep does not close -/

/-- No label into `t` is open across the end of `hi`: what begins up to there ends up to there. -/
def EndsBy (a : Automaton) (t : State) (hi : Char) : Prop :=
  ∀ s, ∀ r ∈ a.arrows s, r.dest = t → ∀ lo' hi', r.label.bounds? = some (lo', hi') →
    lo'.toNat ≤ hi.toNat → hi'.toNat ≤ hi.toNat

instance {hi : Char} : Decidable (a.EndsBy t hi) :=
  decidable_of_iff (∀ s ∈ a.states, ∀ r ∈ a.arrows s, r.dest = t → ∀ b ∈ r.label.bounds?,
    b.1.toNat ≤ hi.toNat → b.2.toNat ≤ hi.toNat) <| by
    rw [EndsBy, forall_arrows_iff]
    simp only [Option.mem_def, Prod.forall]

variable {lo hi : Char}

theorem unbridged_connect (hf : a.Forward) (hs : s < a.size) (hrev : hi.toNat < lo.toNat)
    (hends : a.EndsBy t hi) (u : State) :
    Span.Unbridged ((a.connect s (.range lo hi) t).spans set) u := by
  rintro r hr hru hback m hm hmu hle
  rcases (mem_spans_connect hs).1 hr with ⟨-, hrt, hb⟩ | hr
  · cases hb
    rcases (mem_spans_connect hs).1 hm with ⟨-, -, hb⟩ | hm
    · have hlo : r.lo = m.lo := congrArg Prod.fst (Option.some.inj hb)
      rw [← hlo] at hle
      omega
    · obtain ⟨v, -, n, hn, hb⟩ := mem_spans.1 hm
      have hend := hends v _ hn (hmu.trans (hru.symm.trans hrt)) _ _ hb hle
      exact ⟨hf v _ hn _ _ hb, hend⟩
  · have hup := hf.lo_le_hi r hr
    omega

/-- The sweep takes a range whose bounds descend for one that goes on to the last character. -/
theorem sweepStep_connect (hw : a.WellFormed) (hf : a.Forward) (hs : s < a.size) (ht : t < a.size)
    (hrev : hi.toNat < lo.toNat) (hends : a.EndsBy t hi) :
    (a.connect s (.range lo hi) t).sweepStep = (a.connect s (.range lo Scalar.last) t).stepSet := by
  funext set c
  rw [sweepStep, stepSet, closure_connect hw hs ht (by simp), closure_connect hw hs ht (by simp)]
  refine closure_congr fun u => ?_
  have hlast : (Label.range lo Scalar.last).admits c = true ↔ lo.toNat ≤ c.toNat := by
    have hc := Scalar.ordinal_le_iff.1 (Scalar.ordinal_le_last c)
    simp [Label.admits, hc]
  rw [Span.mem_openAt_iff (unbridged_connect hf hs hrev hends u), mem_move_connect hs, hlast,
    ← mem_openAt_spans hf, Span.mem_openAt_iff_covers hf.lo_le_hi]
  constructor
  · rintro ⟨m, hm, hmu, hle, hopen⟩
    rcases (mem_spans_connect hs).1 hm with ⟨hset, hmt, hb⟩ | hm
    · cases hb
      exact .inl ⟨hset, hmu.symm.trans hmt, hle⟩
    · exact .inr ⟨m, hm, Span.covers_iff.2 ⟨hle, hopen (hf.lo_le_hi m hm)⟩, hmu⟩
  · rintro (⟨hset, rfl, hle⟩ | ⟨m, hm, hc, hmu⟩)
    · refine ⟨⟨lo, hi, u⟩, (mem_spans_connect hs).2 (.inl ⟨hset, rfl, rfl⟩), rfl, hle, ?_⟩
      intro hup
      dsimp only at hup
      omega
    · obtain ⟨hle, hge⟩ := Span.covers_iff.1 hc
      exact ⟨m, (mem_spans_connect hs).2 (.inr hm), hmu, hle, fun _ => hge⟩

/-- Adding a range whose bounds descend leaves the simulation as it was, and what the subset construction
then accepts is decided by the count of beginnings and ends.  When no label into the destination is
open across the early end, the count takes the range for one that goes on to the last character. -/
theorem accepts_determinize_of_addTransition_reversed {b : Automaton} {i : State}
    (hw : a.WellFormed) (hinitial : a.initial = some i)
    (hb : a.addTransition s (.range lo hi) t = .ok b) (hrev : hi.toNat < lo.toNat)
    (w : List Char) :
    b.acceptsByAnyPath w = a.acceptsByAnyPath w ∧
      b.determinize.accepts w = b.acceptsSet (b.sweepSet (b.closure [i]) w) ∧
      (a.Forward → a.EndsBy t hi →
        b.determinize.accepts w = (a.connect s (.range lo Scalar.last) t).acceptsByAnyPath w) := by
  obtain ⟨hs, ht, rfl⟩ := addTransition_eq_ok hb
  have hnone : ∀ c, (Label.range lo hi).admits c = false := fun c => by
    rw [← Bool.not_eq_true]
    intro hc
    obtain ⟨_, _, ⟨⟩, hle, hge⟩ := Label.admits_iff.1 hc
    omega
  have hcount := accepts_determinize_eq_acceptsSet (hw.connect (l := .range lo hi) hs ht) hinitial w
  refine ⟨acceptsByAnyPath_connect hw hs ht (by simp) hnone w, hcount, fun hf hends => ?_⟩
  have hlast : (a.connect s (.range lo Scalar.last) t).initial = some i := hinitial
  rw [hcount, acceptsSet_connect, sweepSet, sweepStep_connect hw hf hs ht hrev hends, ← runSet,
    acceptsByAnyPath_eq_acceptsSet hlast, acceptsSet_connect, closure_connect hw hs ht (by simp),
    closure_connect hw hs ht (by simp)]

/-- Two labels into the accepting state, one of them behind an empty move. -/
def detour : Automaton where
  nodes := #[
    { name := "S0", arrows := .ofList [⟨.range 'a' 'f', 1⟩, ⟨.epsilon, 2⟩] },
    { name := "S1", accepting := true, arrows := .ofList [⟨.symbol 'x', 0⟩] },
    { name := "S2", arrows := .ofList [⟨.symbol 'b', 1⟩] }]
  initial := some 0

theorem accepts_determinize_of_addTransition_reversed_detour :
    detour.WellFormed ∧ detour.initial = some 0 ∧
      detour.addTransition 2 (.range 'q' 'm') 1 = .ok (detour.connect 2 (.range 'q' 'm') 1) ∧
      detour.Forward ∧ detour.EndsBy 1 'm' ∧
      (detour.connect 2 (.range 'q' 'm') 1).acceptsByAnyPath ['r'] =
        detour.acceptsByAnyPath ['r'] ∧
      (detour.connect 2 (.range 'q' 'm') 1).determinize.accepts ['r'] =
        (detour.connect 2 (.range 'q' 'm') 1).acceptsSet
          ((detour.connect 2 (.range 'q' 'm') 1).sweepSet
            ((detour.connect 2 (.range 'q' 'm') 1).closure [0]) ['r']) ∧
      (detour.connect 2 (.range 'q' 'm') 1).determinize.accepts ['r'] =
        (detour.connect 2 (.range 'q' Scalar.last) 1).acceptsByAnyPath ['r'] :=
  have hw : detour.WellFormed := by decide
  have hf : detour.Forward := by decide
  have hends : detour.EndsBy 1 'm' := by decide
  have hb : detour.addTransition 2 (.range 'q' 'm') 1 =
    .ok (detour.connect 2 (.range 'q' 'm') 1) := rfl
  have h := accepts_determinize_of_addTransition_reversed hw rfl hb (by decide) ['r']
  ⟨hw, rfl, hb, hf, hends, h.1, h.2.1, h.2.2 hf hends⟩

/-- Two states and no arrow. -/
def apart : Automaton where
  nodes := #[{ name := "S0" }, { name := "S1", accepting := true }]
  initial := some 0

/-- The subset construction does not pass over the label `z-a`: with it the text `z` is accepted. -/
theorem not_accepts_determinize_of_addTransition_reversed :
    ¬ ∀ (a b : Automaton) (i s t : State) (lo hi : Char), a.WellFormed → a.initial = some i →
      a.addTransition s (.range lo hi) t = .ok b → hi.toNat < lo.toNat →
        ∀ w, b.determinize.accepts w = a.determinize.accepts w := by
  intro h
  have hz := h apart (apart.connect 0 (.range 'z' 'a') 1) 0 0 1 'z' 'a' (by decide) rfl rfl
    (by decide) ['z']
  revert hz
  decide +kernel

end PatternAutomata.Automaton
