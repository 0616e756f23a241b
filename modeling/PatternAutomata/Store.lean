import PatternAutomata.Order.OrderedMap
import PatternAutomata.Session

/-!
# Automata in place

As a value an automaton is one thing.  Where it is kept it is three: the states with their
transitions, one flag a state for acceptance, and the initial state.  Edits write to these one after
the other and stop where a state is refused, and what was written before stays written.

`Command.execute` is what a command does to the automata that are kept, and `Store.automaton` is the
value that a store stands for.
-/

namespace PatternAutomata

/-- A state where it is kept: each label has the set of its destinations. -/
structure Slot where
  name : String
  origin : Option StateSet := none
  transitions : OrderedMap Label StateSet := OrderedMap.empty

namespace Slot

/-- Adds a destination to the set of a label, which is empty before the first one. -/
def link (l : Label) (t : State) (slot : Slot) : Slot :=
  let dests := (slot.transitions.get? l).getD OrderedSet.empty
  { slot with transitions := slot.transitions.insert l (dests.insert t) }

/-- The arrows that the transitions stand for. -/
def arrows (slot : Slot) : OrderedSet Arrow :=
  OrderedSet.ofList (slot.transitions.entries.flatMap fun e => e.2.toList.map fun t => ⟨e.1, t⟩)

/-- A node where it is kept. -/
def ofNode (n : Node) : Slot :=
  { name := n.name
    origin := n.origin
    transitions := OrderedMap.ofList ((Automaton.groupByLabel n.arrows.toList).map fun g =>
      (g.1, OrderedSet.ofList g.2)) }

end Slot

/-- An automaton where it is kept. -/
structure Store where
  slots : Array Slot := #[]
  flags : Array Bool := #[]
  initial : Option State := none

namespace Store

/-- The node of a slot. -/
def node (st : Store) (s : State) (slot : Slot) : Node :=
  { name := slot.name
    accepting := st.flags[s]?.getD false
    origin := slot.origin
    arrows := slot.arrows }

/-- The automaton that a store stands for. -/
def automaton (st : Store) : Automaton :=
  { nodes := st.slots.mapIdx st.node, initial := st.initial }

/-- Puts an automaton where it is kept, as the edits that make it would write it. -/
def ofAutomaton (a : Automaton) : Store :=
  { slots := a.nodes.map Slot.ofNode, flags := a.nodes.map Node.accepting, initial := a.initial }

/-- Refuses a state that is not a member. -/
def require (s : State) (refusal : Misuse) : EStateM Misuse Store Unit := do
  let st ← get
  if s < st.slots.size then pure () else throw refusal

end Store

open Store in
/-- What an edit writes.  There is always room for one more state: where states have numbers of 32 bits,
this is so while there are fewer than `2 ^ 32 - 1` of them. -/
def Edit.write : Edit → EStateM Misuse Store Unit
  | addState name origin => do
    let number := (← get).slots.size
    let slot := { name := name.getD (Automaton.defaultName number), origin := origin }
    modify fun st => { st with slots := st.slots.push slot }
    modify fun st => { st with flags := st.flags.push false }
  | addTransition source label dest => do
    require source (.foreignSource source)
    require dest (.foreignDest dest)
    modify fun st => { st with slots := st.slots.modify source (Slot.link label dest) }
  | setAccepting s flag => do
    require s (.foreignState s)
    modify fun st => { st with flags := st.flags.setIfInBounds s flag }
  | setInitial s => do
    require s (.foreignState s)
    modify fun st => { st with initial := some s }

/-- What a command does to the automata that are kept. -/
def Command.execute : Command → EStateM Failure (List Store) Unit
  | edit place e => do
    match (← get)[place]? with
    | none => pure ()
    | some st =>
      match e.write.run st with
      | .ok _ st' => modify (List.set · place st')
      | .error m st' =>
        modify (List.set · place st')
        throw (.misuse m)
  | derive place d => do
    match (← get)[place]? with
    | none => pure ()
    | some st =>
      match d.apply st.automaton with
      | .ok b => modify (· ++ [Store.ofAutomaton b])
      | .error f => throw f

namespace Store

/-- What is kept after a command, whether it fails or not. -/
def after (stores : List Store) (c : Command) : List Store :=
  match c.execute.run stores with
  | .ok _ stores' => stores'
  | .error _ stores' => stores'

/-- What is kept after commands, from one empty automaton on. -/
def run (cs : List Command) : List Store := cs.foldl after [{}]

end Store

end PatternAutomata
