import PatternAutomata.Proofs.Determinism

/-!
# Which choices the test for determinism sees

An automaton leaves no choice when no state has an empty move, a label with two destinations, or two
labels that admit the same character.  An automaton that passes the test leaves none, whatever its
labels are.

The converse fails.  A range that runs downwards admits nothing and leaves no choice, and yet the test
refuses it where it begins inside another label, behind the first character of that label:

    a.isDeterministic = true ↔ a.NoChoice ∧ a.NoEmptyInside                (isDeterministic_iff_noChoice)
-/

namespace PatternAutomata.Automaton

open StrictTotal

variable {a : Automaton} {s : State}

/-! ## Choices -/

/-- Whether a state has no empty move, no label with two destinations, and no two labels that admit the
same character. -/
structure NoChoiceAt (a : Automaton) (s : State) : Prop where
  noEmptyMove : ∀ r ∈ a.arrows s, r.label ≠ .epsilon
  oneDest : ∀ r ∈ a.arrows s, ∀ r' ∈ a.arrows s, r.label = r'.label → r.dest = r'.dest
  oneLabel : ∀ r ∈ a.arrows s, ∀ r' ∈ a.arrows s, ∀ c, r.label.admits c = true →
    r'.label.admits c = true → r.label = r'.label

/-- Whether no state leaves a choice. -/
def NoChoice (a : Automaton) : Prop := ∀ s, a.NoChoiceAt s

/-- Whether no range that runs downwards begins inside another label of the same state, behind the
first character of that label. -/
def NoEmptyInside (a : Automaton) : Prop :=
  ∀ s, ∀ r ∈ a.arrows s, ∀ r' ∈ a.arrows s, ¬ r.label.HoldsEmpty r'.label

/-! ## Two arrows at a time -/

/-- What holds of any two arrows out of a state, in either order. -/
theorem pairwise_arrows_iff {R : Arrow → Arrow → Prop} (hR : ∀ {r r'}, R r r' → R r' r) :
    (a.arrows s).Pairwise R ↔ ∀ r ∈ a.arrows s, ∀ r' ∈ a.arrows s, r ≠ r' → R r r' := by
  have : Std.Symm R := ⟨fun _ _ => hR⟩
  constructor
  · exact fun h r hr r' hr' hne => h.forall hr hr' hne
  · intro h
    have hne := (pairwise_arrows a s).imp StrictTotal.ne_of_lt
    exact hne.imp_of_mem fun hr hr' hrr' => h _ hr _ hr' hrr'

theorem noChoiceAt_iff :
    a.NoChoiceAt s ↔ (∀ r ∈ a.arrows s, r.label ≠ .epsilon) ∧
      ((a.arrows s).Pairwise fun r r' => r.label ≠ r'.label) ∧
      (a.arrows s).Pairwise fun r r' => r.label.Apart r'.label := by
  rw [pairwise_arrows_iff Ne.symm, pairwise_arrows_iff Label.Apart.symm]
  constructor
  · intro h
    have hlabel : ∀ r ∈ a.arrows s, ∀ r' ∈ a.arrows s, r ≠ r' → r.label ≠ r'.label := by
      intro r hr r' hr' hne e
      have hdest := h.oneDest r hr r' hr' e
      obtain ⟨l, t⟩ := r
      cases e
      cases hdest
      exact hne rfl
    refine ⟨h.noEmptyMove, hlabel, fun r hr r' hr' hne c hc => ?_⟩
    rw [← Bool.not_eq_true]
    exact fun hc' => hlabel r hr r' hr' hne (h.oneLabel r hr r' hr' c hc hc')
  · rintro ⟨hempty, hlabel, hapart⟩
    refine ⟨hempty, fun r hr r' hr' e => ?_, fun r hr r' hr' c hc hc' => ?_⟩
    · by_contra hne
      exact hlabel r hr r' hr' (fun e' => hne (congrArg Arrow.dest e')) e
    · by_contra hne
      rw [hapart r hr r' hr' (fun e' => hne (congrArg Arrow.label e')) c hc] at hc'
      cases hc'

theorem isDeterministicAt_iff_noChoiceAt :
    a.isDeterministicAt s = true ↔ a.NoChoiceAt s ∧
      ∀ r ∈ a.arrows s, ∀ r' ∈ a.arrows s, ¬ r.label.HoldsEmpty r'.label := by
  have hinside : ((a.arrows s).Pairwise fun r r' =>
      ¬ r.label.HoldsEmpty r'.label ∧ ¬ r'.label.HoldsEmpty r.label) ↔
        ∀ r ∈ a.arrows s, ∀ r' ∈ a.arrows s, ¬ r.label.HoldsEmpty r'.label := by
    rw [pairwise_arrows_iff And.symm]
    constructor
    · intro h r hr r' hr'
      by_cases e : r = r'
      · -- No label begins behind its own beginning.
        subst e
        rintro ⟨lo, hi, lo', hi', hb, hb', -, hlt, -⟩
        cases hb.symm.trans hb'
        exact Nat.lt_irrefl _ hlt
      · exact (h r hr r' hr' e).1
    · exact fun h r hr r' hr' _ => ⟨h r hr r' hr', h r' hr' r hr⟩
  rw [isDeterministicAt_iff_pairwise, List.pairwise_and_iff, noChoiceAt_iff, hinside, and_assoc,
    and_assoc]

/-- The test passes an automaton when it leaves no choice, unless a range that runs downwards begins
inside another label. -/
theorem isDeterministic_iff_noChoice (a : Automaton) :
    a.isDeterministic = true ↔ a.NoChoice ∧ a.NoEmptyInside := by
  unfold isDeterministic states NoChoice NoEmptyInside
  rw [List.all_eq_true, ← forall_and]
  simp only [isDeterministicAt_iff_noChoiceAt, List.mem_range]
  refine ⟨fun h s => ?_, fun h s _ => h s⟩
  by_cases hs : s < a.size
  · exact h s hs
  · -- A state that is not a member has no arrows.
    have hnone : a.arrows s = [] := arrows_of_le (Nat.le_of_not_lt hs)
    rw [hnone]
    refine ⟨⟨?_, ?_, ?_⟩, ?_⟩ <;> simp [hnone]

/-- A range of letters, and a range that runs downwards from inside it. -/
def inside : Automaton where
  nodes := #[{ name := "S0", arrows := .ofList [⟨.range 'a' 'm', 0⟩, ⟨.range 'f' 'c', 0⟩] }]
  initial := some 0

theorem noChoice_inside : inside.NoChoice := by
  intro s
  have hmem : ∀ r ∈ inside.arrows s, r = ⟨.range 'a' 'm', 0⟩ ∨ r = ⟨.range 'f' 'c', 0⟩ := by
    intro r hr
    have hs : s = 0 := Nat.lt_one_iff.1 (lt_size_of_mem_arrows hr)
    subst hs
    have harrows : inside.arrows 0 = [⟨.range 'a' 'm', 0⟩, ⟨.range 'f' 'c', 0⟩] := by decide
    rw [harrows] at hr
    simpa using hr
  have hnone : ∀ c, (Label.range 'f' 'c').admits c = false := by
    intro c
    rw [← Bool.not_eq_true, Label.admits_iff]
    rintro ⟨_, _, ⟨⟩, hlo, hhi⟩
    exact absurd (Nat.le_trans hlo hhi) (by decide)
  refine ⟨fun r hr => ?_, fun r hr r' hr' _ => ?_, fun r hr r' hr' c hc hc' => ?_⟩
  · rcases hmem r hr with rfl | rfl <;> exact fun e => nomatch e
  · rcases hmem r hr with rfl | rfl <;> rcases hmem r' hr' with rfl | rfl <;> rfl
  · rcases hmem r hr with rfl | rfl
    · rcases hmem r' hr' with rfl | rfl
      · rfl
      · exact absurd (hnone c) (by rw [hc']; decide)
    · exact absurd (hnone c) (by rw [hc]; decide)

/-- The range `f-c` admits nothing, and still the test refuses it beside `a-m`. -/
theorem not_isDeterministic_iff_noChoice :
    ¬ ∀ a : Automaton, a.isDeterministic = true ↔ a.NoChoice := by
  intro h
  have hpasses := (h inside).2 noChoice_inside
  revert hpasses
  decide

end PatternAutomata.Automaton
