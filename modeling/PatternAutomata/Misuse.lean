import PatternAutomata.Text.Quoted

/-!
# Requests that an automaton cannot serve

A state is a number, and belongs to an automaton only below the number of its states.  `Misuse`
lists what a caller can get wrong; the texts are fixed, and one kind has none.
-/

namespace PatternAutomata

/-- A state, as its place among the states of its automaton, which may be any number. -/
abbrev State := Nat

/-- The text of a state on its own. -/
def stateText (s : State) : String := s!"State({s})"

/-- What a caller can get wrong. -/
inductive Misuse where
  /-- The source of a new transition is not a member. -/
  | foreignSource (s : State)
  /-- The destination of a new transition is not a member. -/
  | foreignDest (s : State)
  /-- A state that is asked about is not a member. -/
  | foreignState (s : State)
  /-- A closure is asked for that starts outside the automaton. -/
  | foreignSeed (s : State)
  /-- A deterministic automaton was required. -/
  | nondeterministic
  /-- A label was asked for that runs downwards. -/
  | emptyInterval (lo hi : Char)
deriving DecidableEq

/-- The text of a misuse, where it has one. -/
def Misuse.message : Misuse → Option String
  | .foreignSource s => some s!"source {stateText s} is not a member state"
  | .foreignDest s => some s!"dest {stateText s} is not a member state"
  | .foreignState s => some s!"{stateText s} is not a member state"
  | .foreignSeed _ => none
  | .nondeterministic => some "minimize requires a deterministic automaton"
  | .emptyInterval lo hi => some s!"empty interval {Text.quotedChar lo}..={Text.quotedChar hi}"

end PatternAutomata
