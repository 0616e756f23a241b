import PatternAutomata.Proofs.Naming
import PatternAutomata.Proofs.Trim
import PatternAutomata.Session

/-!
# What is derived leads to members

Whatever automaton an operation makes, its arrows and its initial state are members: a number that an
exploration writes down is the number of a key that it has met (`Exploration.InRange.wellFormed`), a
trimmed automaton numbers the states that it keeps (`RestrictsTo.wellFormed`), and a record is read as a
whole or not at all.

    d.apply a = .ok b → b.WellFormed                                        (Derivation.wellFormed)
-/

namespace PatternAutomata

namespace Automaton

variable {a b : Automaton}

theorem wellFormed_empty : empty.WellFormed := by
  constructor
  · intro s r hr
    rw [arrows_empty] at hr
    cases hr
  · rintro s ⟨⟩

theorem wellFormed_of_quotient {p : Partition} {first : Nat} (h : a.quotient p first = .ok b) :
    b.WellFormed := by
  obtain ⟨e, he, h⟩ := bind_eq_ok_iff.1 h
  cases h
  exact ((Exploration.inRange_start first).advance he).wellFormed _ _

/-- Minimizing succeeds on more automata than it is meant for; the result leads to members there, too. -/
theorem wellFormed_of_minimize (h : a.minimize = .ok b) : b.WellFormed := by
  unfold minimize at h
  split at h
  · cases h
  · split at h
    · cases h
      exact wellFormed_empty
    · obtain ⟨p, -, h⟩ := bind_eq_ok_iff.1 h
      split at h
      · cases h
        exact wellFormed_empty
      · exact wellFormed_of_quotient h

theorem wellFormed_trim (hw : a.WellFormed) : a.trim.WellFormed := by
  cases hi : a.initial with
  | none =>
    rw [trim, hi]
    exact wellFormed_empty
  | some i => exact (restrictsTo_trim hw hi).wellFormed

end Automaton

/-! ## Derivations -/

theorem wellFormed_of_compile {text : List Char} {d : Automaton} (h : compile text = .ok d) :
    d.WellFormed := by
  obtain ⟨st, hst, rfl⟩ := compile_eq_ok_iff.1 h
  exact (Compiler.plain_of_stages hst).2.2.1

theorem Derivation.wellFormed {d : Derivation} {a b : Automaton} (hw : a.WellFormed)
    (h : d.apply a = .ok b) : b.WellFormed := by
  cases d with
  | empty =>
    cases h
    exact Automaton.wellFormed_empty
  | determinize =>
    cases h
    exact Automaton.wellFormed_determinize a
  | determinizeWithin limit =>
    have hb := mapError_eq_ok_iff.1 h
    rcases Automaton.determinizeWithin_cases a limit with h' | h'
    · cases h'.symm.trans hb
      exact Automaton.wellFormed_determinize a
    · cases h'.symm.trans hb
  | minimize => exact Automaton.wellFormed_of_minimize (mapError_eq_ok_iff.1 h)
  | trim =>
    cases h
    exact Automaton.wellFormed_trim hw
  | roundTrip => exact (Record.reads_of_toAutomaton (mapError_eq_ok_iff.1 h)).wellFormed
  | ofRecord r => exact (Record.reads_of_toAutomaton (mapError_eq_ok_iff.1 h)).wellFormed
  | ofPostorder text => exact (Automaton.ofPostorder_spec (mapError_eq_ok_iff.1 h)).1
  | ofPattern text => exact wellFormed_of_compile h

end PatternAutomata
