import PatternAutomata.Automaton.Run
import PatternAutomata.Automaton.Sweep
import PatternAutomata.Automaton.Exploration

/-!
# The subset construction

`determinize` explores the closed sets of states that texts lead to, from the closure of the
initial state on.  A state of the result stands for such a set, its origin, and accepts when a
member does.  There are at most `2 ^ n` sets of `n` states, which bounds the exploration.

`determinizeWithin` gives up under a work limit.  Each set costs its size when it is done, and the
work is too much as soon as the cost so far reaches ten times the limit.
-/

namespace PatternAutomata

/-- The work limit `limit` did not suffice. -/
structure TooComplex where
  limit : Nat
deriving DecidableEq

def TooComplex.message (e : TooComplex) : String :=
  s!"Determinizing this automaton would require more than {e.limit} work units"

/-- A work limit for callers without one of their own. -/
def defaultWorkLimit : Nat := 10000

namespace Automaton

/-- The largest budget. -/
def maxBudget : Nat := UInt64.size - 1

/-- The cost at which a limit is used up. -/
def budget (limit : Nat) : Nat := min (limit * 10) maxBudget

/-- The automaton of the sets that an exploration met. -/
def ofSubsets (a : Automaton) (e : Exploration StateSet) : Automaton :=
  e.toAutomaton id a.acceptsSet

/-- How many sets of states there are. -/
def subsetCount (a : Automaton) : Nat := Nat.pow 2 a.size

/-- Explores the closed sets from the initial one on. -/
def exploreSubsets {σ ε : Type} (a : Automaton)
    (moves : σ → StateSet → Except ε (σ × List (Label × StateSet))) (account : σ) :
    Except ε Automaton :=
  match a.initial with
  | none => .ok empty
  | some s => (Exploration.explore moves a.subsetCount account (a.closure [s])).map a.ofSubsets

/-- The deterministic automaton of the closed sets of states. -/
def determinize (a : Automaton) : Automaton :=
  match a.exploreSubsets (ε := Empty) (fun _ set => .ok ((), a.subsetMoves set)) () with
  | .ok d => d

/-- The moves of a set with the cost after it, unless that cost uses up the limit. -/
def movesWithin (a : Automaton) (limit : Nat) (cost : Nat) (set : StateSet) :
    Except TooComplex (Nat × List (Label × StateSet)) :=
  let cost := cost + set.size
  if budget limit ≤ cost then .error ⟨limit⟩ else .ok (cost, a.subsetMoves set)

/-- The subset construction under a work limit. -/
def determinizeWithin (a : Automaton) (limit : Nat) : Except TooComplex Automaton :=
  a.exploreSubsets (a.movesWithin limit) 0

end Automaton

end PatternAutomata
