import PatternAutomata.Automaton.Trim
import PatternAutomata.Compiler

/-!
# Sessions

A session is a list of automata that commands edit in place or derive new ones from.  A command
either succeeds and gives the new list, or fails and gives a cause; the list it was given stays as
it was.
-/

namespace PatternAutomata

/-- A change to one automaton. -/
inductive Edit where
  /-- Adds a state, perhaps with a name of its own and an origin. -/
  | addState (name : Option String) (origin : Option StateSet)
  | addTransition (source : State) (label : Label) (dest : State)
  | setAccepting (s : State) (flag : Bool)
  | setInitial (s : State)

/-- A way to make an automaton, from a given one or on its own. -/
inductive Derivation where
  | empty
  | determinize
  | determinizeWithin (limit : Nat)
  | minimize
  | trim
  /-- Writes a record and reads it back. -/
  | roundTrip
  | ofRecord (r : Record)
  | ofPostorder (text : List Char)
  | ofPattern (text : List Char)

/-- A command names the automaton that it works on. -/
inductive Command where
  | edit (place : Nat) (e : Edit)
  | derive (place : Nat) (d : Derivation)

namespace Edit

/-- The automaton after an edit. -/
def apply (a : Automaton) : Edit → Except Misuse Automaton
  | addState name origin =>
    .ok (a.addNode { name := name.getD (Automaton.defaultName a.size), origin := origin })
  | addTransition source label dest => a.addTransition source label dest
  | setAccepting s flag => a.setAccepting s flag
  | setInitial s => a.setInitial s

/-- The state that an edit adds. -/
def added? (a : Automaton) : Edit → Option State
  | addState _ _ => some a.size
  | _ => none

end Edit

/-- The automaton that a derivation makes. -/
def Derivation.apply (a : Automaton) : Derivation → Except Failure Automaton
  | empty => .ok Automaton.empty
  | determinize => .ok a.determinize
  | determinizeWithin limit => (a.determinizeWithin limit).mapError .tooComplex
  | minimize => a.minimize.mapError .misuse
  | trim => .ok a.trim
  | roundTrip => a.toRecord.toAutomaton.mapError .record
  | ofRecord r => r.toAutomaton.mapError .record
  | ofPostorder text => (Automaton.ofPostorder text).mapError .pattern
  | ofPattern text => compile text

/-- The automata at hand. -/
abbrev Session := List Automaton

namespace Session

/-- A session with one empty automaton. -/
def start : Session := [Automaton.empty]

/-- The session after a command.  A place without an automaton is left alone. -/
def perform (s : Session) : Command → Except Failure Session
  | .edit place e =>
    match s[place]? with
    | none => .ok s
    | some a => (e.apply a).mapError .misuse |>.map fun b => s.set place b
  | .derive place d =>
    match s[place]? with
    | none => .ok s
    | some a => (d.apply a).map fun b => s ++ [b]

/-- The session after a command, which stays as it is when the command fails. -/
def after (s : Session) (c : Command) : Session :=
  match s.perform c with
  | .ok t => t
  | .error _ => s

/-- The session after commands from the start. -/
def run (cs : List Command) : Session := cs.foldl after start

end Session

end PatternAutomata
