import PatternAutomata.Automaton.Reach

/-!
# Runs over a text

`step` follows the first arrow, in the order of labels, that admits a character; `run` follows a
whole text and may break off.  `simulate` follows all arrows at once: it keeps the set of states
that the text read so far can lead to, closed under empty moves.
-/

namespace PatternAutomata.Automaton

/-! ## One state at a time -/

/-- The state that `c` leads to from `s`. -/
def step (a : Automaton) (s : State) (c : Char) : Option State :=
  ((a.arrows s).find? fun r => r.label.admits c).map Arrow.dest

/-- The state that a text leads to from `s`. -/
def runFrom (a : Automaton) : State → List Char → Option State
  | s, [] => some s
  | s, c :: w => (a.step s c).bind fun t => a.runFrom t w

/-- The state that a text leads to from the initial state. -/
def run (a : Automaton) (w : List Char) : Option State := a.initial.bind fun s => a.runFrom s w

/-- Whether following a text ends in an accepting state. -/
def accepts (a : Automaton) (w : List Char) : Bool :=
  match a.run w with
  | some s => a.accepting s
  | none => false

/-- The states that a text passes from `s` on, up to the first that is missing. -/
def traceFrom (a : Automaton) : Option State → List Char → List (Option State)
  | none, _ => [none]
  | some s, [] => [some s]
  | some s, c :: w => some s :: a.traceFrom (a.step s c) w

/-- The states that a text passes, from the initial state on. -/
def trace (a : Automaton) (w : List Char) : List (Option State) := a.traceFrom a.initial w

/-! ## All states at once -/

/-- Destinations of the arrows out of a set that admit `c`. -/
def move (a : Automaton) (set : StateSet) (c : Char) : List State :=
  set.toList.flatMap fun s => ((a.arrows s).filter fun r => r.label.admits c).map Arrow.dest

/-- The states that `c` can lead to from a set. -/
def stepSet (a : Automaton) (set : StateSet) (c : Char) : StateSet := a.closure (a.move set c)

/-- The states that a text can lead to from a set. -/
def runSet (a : Automaton) (set : StateSet) (w : List Char) : StateSet := w.foldl a.stepSet set

/-- The states that a text can lead to, if there is an initial state. -/
def simulate (a : Automaton) (w : List Char) : Option StateSet :=
  a.initial.map fun s => a.runSet (a.closure [s]) w

/-- Whether a set has an accepting member. -/
def acceptsSet (a : Automaton) (set : StateSet) : Bool := set.toList.any a.accepting

/-- Whether a text can lead to an accepting state. -/
def acceptsByAnyPath (a : Automaton) (w : List Char) : Bool :=
  match a.simulate w with
  | some set => a.acceptsSet set
  | none => false

/-- The sets that a text passes from `set` on. -/
def traceSets (a : Automaton) : StateSet → List Char → List StateSet
  | set, [] => [set]
  | set, c :: w => set :: a.traceSets (a.stepSet set c) w

/-- The sets that a text passes, if there is an initial state. -/
def simulation (a : Automaton) (w : List Char) : Option (List StateSet) :=
  a.initial.map fun s => a.traceSets (a.closure [s]) w

/-! ## Lemmas -/

theorem runFrom_append (a : Automaton) (s : State) (v w : List Char) :
    a.runFrom s (v ++ w) = (a.runFrom s v).bind fun t => a.runFrom t w := by
  induction v generalizing s with
  | nil => rfl
  | cons c v ih =>
    simp only [List.cons_append, runFrom, Option.bind_assoc]
    congr 1
    funext t
    exact ih t

end PatternAutomata.Automaton
