import PatternAutomata.Automaton.Basic

/-!
# Automata as tables

One line a state: an arrow marks the initial state, a star the accepting ones; then the name, and
each label with the names of its destinations.
-/

namespace PatternAutomata.Automaton

/-- A label with the names of its destinations. -/
def moveText (a : Automaton) (l : Label) (dests : List State) : String :=
  s!" {l.text}->" ++ ",".intercalate (dests.map a.name)

/-- The line of a state. -/
def line (a : Automaton) (s : State) : String :=
  (if a.initial = some s then "->" else "  ") ++ (if a.accepting s then "*" else " ") ++
    a.name s ++ ":" ++ String.join ((a.next s).map fun m => a.moveText m.1 m.2) ++ "\n"

/-- All lines. -/
def table (a : Automaton) : String := String.join (a.states.map a.line)

end PatternAutomata.Automaton
