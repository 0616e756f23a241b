import PatternAutomata.Automaton.Minimize

/-!
# Removing dead states

`trim` keeps the live states and the initial one, in their order, with their names, origins and
acceptance, and the arrows between them.
-/

namespace PatternAutomata.Automaton

/-- A node with its arrows led to the places that their destinations have among `kept`. -/
def trimNode (kept : List State) (n : Node) : Node :=
  { n with arrows := OrderedSet.ofList (n.arrows.toList.filterMap fun r =>
      (kept.idxOf? r.dest).map fun t => ⟨r.label, t⟩) }

/-- The part of the automaton on some states. -/
def restrict (a : Automaton) (kept : List State) : Automaton :=
  { nodes := ((kept.filterMap fun s => a.nodes[s]?).map (trimNode kept)).toArray
    initial := a.initial.bind fun s => kept.idxOf? s }

/-- The automaton without its dead states. -/
def trim (a : Automaton) : Automaton :=
  if a.initial.isNone then empty else a.restrict a.kept.toList

end PatternAutomata.Automaton
