import PatternAutomata.Automaton.Basic
import PatternAutomata.Order.Sort

/-!
# The test for determinism

A state passes when none of its labels is the empty move, none has two destinations, and in the
order of their bounds each label ends before the next one begins.
-/

namespace PatternAutomata

/-- Whether each pair of bounds ends before the next one begins. -/
def endsBeforeNext : List (Char × Char) → Bool
  | b :: c :: rest => decide (b.2.toNat < c.1.toNat) && endsBeforeNext (c :: rest)
  | _ => true

namespace Automaton

/-- Whether the outgoing labels of one state leave no choice. -/
def isDeterministicAt (a : Automaton) (s : State) : Bool :=
  (a.next s).all (fun g => !g.1.isEpsilon && decide (g.2.length ≤ 1)) &&
    endsBeforeNext (sort ((a.next s).filterMap fun g => g.1.bounds?))

/-- Whether no state leaves a choice. -/
def isDeterministic (a : Automaton) : Bool := a.states.all a.isDeterministicAt

/-- No range label of the automaton runs downwards. -/
def Forward (a : Automaton) : Prop :=
  ∀ s, ∀ r ∈ a.arrows s, ∀ lo hi, r.label.bounds? = some (lo, hi) → lo.toNat ≤ hi.toNat

end Automaton

end PatternAutomata
