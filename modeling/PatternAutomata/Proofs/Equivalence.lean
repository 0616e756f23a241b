import PatternAutomata.Proofs.Canonical
import PatternAutomata.Proofs.Evaluation
import PatternAutomata.Proofs.WorkLimit

/-!
# Patterns that match the same texts

Every pattern matches some text, so its minimal automaton depends on the texts that it matches and on
nothing else: not on how the pattern is written, nor on the levels of the operators, nor on a work
limit that sufficed.

    the nondeterministic automata of two compilations accept the same texts
      → their minimal automata are equal but for origins, and have one record
                                                        (Compiler.minimal_eq_of_acceptsByAnyPath_eq)
-/

namespace PatternAutomata

/-! ## Records do not show origins -/

namespace Automaton

theorem stateRecord_withoutOrigins (a : Automaton) (s : State) :
    a.withoutOrigins.stateRecord s = a.stateRecord s := by
  unfold stateRecord next
  simp only [accepting_withoutOrigins, arrows_withoutOrigins,
    funext (name_withoutOrigins a)]

theorem toRecord_withoutOrigins (a : Automaton) : a.withoutOrigins.toRecord = a.toRecord := by
  unfold toRecord states
  simp only [size_withoutOrigins, initial_withoutOrigins, name_withoutOrigins,
    stateRecord_withoutOrigins, funext (name_withoutOrigins a)]

end Automaton

theorem Assembles.threaded {p : Precedence} {text : List Char} {nfa : Automaton}
    (h : Assembles p text nfa) : nfa.Threaded := by
  obtain ⟨x, y, -, -, hnfa⟩ := assembles_iff.1 h
  exact Automaton.threaded_of_ofPostorder hnfa

namespace Compiler

open Automaton

variable {c c' : Compiler} {text text' : List Char} {st st' : Stages}

theorem dfa_eq_of_stages (h : c.stages text = .ok st) : st.dfa = st.nfa.determinize :=
  eq_determinize (stages_spec h).2.1

/-- No stage changes the language, whatever the work limit is. -/
theorem accepts_minimal_of_stages (h : c.stages text = .ok st) (w : List Char) :
    st.minimal.accepts w = st.nfa.acceptsByAnyPath w := by
  obtain ⟨hnfa, -, hminimal⟩ := stages_spec h
  obtain ⟨hw, hf, s, hs⟩ := hnfa.spec
  rw [dfa_eq_of_stages h] at hminimal
  obtain ⟨m, hm, hlang⟩ := exists_minimize_determinize hs
  rw [hm] at hminimal
  rw [← Except.ok.inj hminimal, hlang, accepts_determinize hw hf hs]

/-- Patterns that match the same texts have one minimal automaton, but for the origins of its states,
and one record. -/
theorem minimal_eq_of_acceptsByAnyPath_eq (h : c.stages text = .ok st)
    (h' : c'.stages text' = .ok st')
    (hlang : ∀ w, st.nfa.acceptsByAnyPath w = st'.nfa.acceptsByAnyPath w) :
    st.minimal.withoutOrigins = st'.minimal.withoutOrigins ∧
      st.minimal.toRecord = st'.minimal.toRecord := by
  obtain ⟨hnfa, -, hminimal⟩ := stages_spec h
  obtain ⟨hnfa', -, hminimal'⟩ := stages_spec h'
  obtain ⟨hw, hf, s, hs⟩ := hnfa.spec
  obtain ⟨hw', hf', s', hs'⟩ := hnfa'.spec
  rw [dfa_eq_of_stages h] at hminimal
  rw [dfa_eq_of_stages h'] at hminimal'
  have heq : st.minimal.withoutOrigins = st'.minimal.withoutOrigins := by
    refine withoutOrigins_eq_of_minimize_eq_ok (wellFormed_determinize _)
      (isDeterministic_determinize _) (forward_determinize _) (initial_determinize hs)
      (wellFormed_determinize _) (isDeterministic_determinize _) (forward_determinize _)
      (initial_determinize hs') hminimal hminimal' (fun w => ?_) ?_
    · rw [accepts_determinize hw hf hs, accepts_determinize hw' hf' hs', hlang]
    · obtain ⟨w, hacc⟩ := hnfa.threaded.exists_accepted hw
      exact ⟨w, by rw [accepts_determinize hw hf hs, hacc]⟩
  refine ⟨heq, ?_⟩
  rw [← toRecord_withoutOrigins, heq, toRecord_withoutOrigins]

/-- Conversely, the minimal automaton tells which texts a pattern matches. -/
theorem acceptsByAnyPath_eq_of_minimal_eq (h : c.stages text = .ok st)
    (h' : c'.stages text' = .ok st')
    (heq : st.minimal.withoutOrigins = st'.minimal.withoutOrigins) (w : List Char) :
    st.nfa.acceptsByAnyPath w = st'.nfa.acceptsByAnyPath w := by
  rw [← accepts_minimal_of_stages h, ← accepts_minimal_of_stages h', ← accepts_withoutOrigins, heq,
    accepts_withoutOrigins]

/-- The letter a and any number of letters b. -/
def letters : Automaton where
  nodes := #[
    { name := "S0", arrows := .ofList [⟨.symbol 'a', 1⟩] },
    { name := "S1", accepting := true, arrows := .ofList [⟨.symbol 'b', 1⟩] }]
  initial := some 0

theorem exists_stages_of_map {m : Automaton}
    (h : (c.stages text).map (fun st => st.minimal.withoutOrigins) = .ok m) :
    ∃ st, c.stages text = .ok st ∧ st.minimal.withoutOrigins = m := by
  cases hst : c.stages text with
  | error e =>
    rw [hst] at h
    cases h
  | ok st =>
    rw [hst] at h
    exact ⟨st, rfl, Except.ok.inj h⟩

/-- The patterns `ab*` and `a(b+?)`, with other levels and a work limit for the second. -/
theorem minimal_eq_letters :
    ∃ st st', ({} : Compiler).stages ['a', 'b', '*'] = .ok st ∧
      ({ precedence := .looseRepetition, limit := some 5 } : Compiler).stages
        ['a', '(', 'b', '+', '?', ')'] = .ok st' ∧
      (∀ w, st.nfa.acceptsByAnyPath w = st'.nfa.acceptsByAnyPath w) ∧
      st.minimal.withoutOrigins = st'.minimal.withoutOrigins ∧
      st.minimal.toRecord = st'.minimal.toRecord := by
  obtain ⟨st, h, hm⟩ : ∃ st, ({} : Compiler).stages ['a', 'b', '*'] = .ok st ∧
      st.minimal.withoutOrigins = letters := exists_stages_of_map (by decide +kernel)
  obtain ⟨st', h', hm'⟩ : ∃ st, ({ precedence := .looseRepetition, limit := some 5 } : Compiler).stages
      ['a', '(', 'b', '+', '?', ')'] = .ok st ∧ st.minimal.withoutOrigins = letters :=
    exists_stages_of_map (by decide +kernel)
  have hlang := acceptsByAnyPath_eq_of_minimal_eq h h' (hm.trans hm'.symm)
  exact ⟨st, st', h, h', hlang, minimal_eq_of_acceptsByAnyPath_eq h h' hlang⟩

end Compiler

end PatternAutomata
