import PatternAutomata.Automaton.Basic
import PatternAutomata.Order.OrderedMap

/-!
# Automata as records

A record writes an automaton down with names: each state under its name, each label under its text.
One destination is written alone and several as a list in state order.  Reading a record numbers
the states in the order of their names.

When two states share a name, or two labels of a state a text, the later one is written.
-/

namespace PatternAutomata

/-- The destinations of a label, by name. -/
inductive Destinations where
  | single (name : String)
  | many (names : List String)
deriving DecidableEq

/-- The names in order. -/
def Destinations.names : Destinations → List String
  | single n => [n]
  | many ns => ns

/-- Names as destinations: one stands alone. -/
def Destinations.ofNames : List String → Destinations
  | [n] => single n
  | ns => many ns

/-- A state in a record. -/
structure StateRecord where
  terminating : Bool
  transitions : OrderedMap String Destinations
deriving DecidableEq

/-- An automaton by names. -/
structure Record where
  starting : Option String
  states : OrderedMap String StateRecord
deriving DecidableEq

/-- What a record can have wrong. -/
inductive RecordError where
  /-- A destination, or the starting state, is not among the states. -/
  | unknownState (name : String)
  /-- A label is not the text of any label. -/
  | invalidLabel (text : String)
deriving DecidableEq

def RecordError.message : RecordError → String
  | unknownState name => s!"Unknown state: {name}"
  | invalidLabel text => s!"Invalid transition label: {Text.quotedString text}"

namespace Automaton

/-! ## Writing -/

/-- The record of one state. -/
def stateRecord (a : Automaton) (s : State) : StateRecord :=
  { terminating := a.accepting s
    transitions := OrderedMap.ofList ((a.next s).map fun m =>
      (m.1.text, Destinations.ofNames (m.2.map a.name))) }

/-- The record of an automaton. -/
def toRecord (a : Automaton) : Record :=
  { starting := a.initial.map a.name
    states := OrderedMap.ofList (a.states.map fun s => (a.name s, a.stateRecord s)) }

end Automaton

namespace Record

/-! ## Reading -/

/-- The state that a name stands for. -/
def state (r : Record) (name : String) : Except RecordError State :=
  match r.states.keys.findIdx? fun k => decide (k = name) with
  | some s => .ok s
  | none => .error (.unknownState name)

/-- The arrows that an entry of a state's transitions stands for. -/
def arrows (r : Record) (entry : String × Destinations) : Except RecordError (List Arrow) :=
  match Label.parse? entry.1 with
  | none => .error (.invalidLabel entry.1)
  | some l => do
    let dests ← entry.2.names.mapM r.state
    .ok (dests.map fun t => ⟨l, t⟩)

/-- The node that an entry stands for. -/
def node (r : Record) (entry : String × StateRecord) : Except RecordError Node := do
  let arrows ← entry.2.transitions.entries.mapM r.arrows
  .ok { name := entry.1
        accepting := entry.2.terminating
        arrows := OrderedSet.ofList arrows.flatten }

/-- The automaton that a record stands for.  States are read in the order of their names, and the
starting state last. -/
def toAutomaton (r : Record) : Except RecordError Automaton := do
  let nodes ← r.states.entries.mapM r.node
  let initial ← match r.starting with
    | none => .ok none
    | some name => (r.state name).map some
  .ok { nodes := nodes.toArray, initial := initial }

end Record

end PatternAutomata
