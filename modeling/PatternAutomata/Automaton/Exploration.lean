import PatternAutomata.Automaton.Basic
import PatternAutomata.Order.Numbering

/-!
# Numbering a graph breadth first

A graph is given by a first key and, for each key, its labelled moves.  Exploring it numbers the
keys in the order in which they are met: the first key is 0, and the moves of each key in turn are
followed in their order.  The result has one state a key, and depends on the graph alone.

Asking for the moves of a key draws on an account, which is handed from key to key.  It may fail,
and then so does the exploration.
-/

namespace PatternAutomata

/-- The keys met so far with their numbers, and the rows of the keys that are done. -/
structure Exploration (κ : Type) [StrictTotal κ] where
  met : Numbering κ
  rows : Array (List (Label × Nat))

namespace Exploration

variable {κ σ ε : Type} [StrictTotal κ]

/-- Only the first key is met. -/
def start (first : κ) : Exploration κ := ⟨Numbering.empty.add first, #[]⟩

/-- Numbers the keys of a row that have not been met. -/
def meet (met : Numbering κ) (row : List (Label × κ)) : Numbering κ :=
  row.foldl (fun met m => met.add m.2) met

/-- A row with the numbers of its keys. -/
def number (met : Numbering κ) (row : List (Label × κ)) : List (Label × Nat) :=
  row.map fun m => (m.1, (met.find? m.2).getD 0)

/-- Does the next key, as long as there is one and `fuel` lasts. -/
def advance (moves : σ → κ → Except ε (σ × List (Label × κ))) :
    Nat → σ → Exploration κ → Except ε (Exploration κ)
  | 0, _, e => .ok e
  | fuel + 1, account, ⟨met, rows⟩ =>
    match met.keys[rows.size]? with
    | none => .ok ⟨met, rows⟩
    | some k =>
      match moves account k with
      | .error err => .error err
      | .ok (account, row) =>
        let met := meet met row
        let numbered := number met row
        advance moves fuel account ⟨met, rows.push numbered⟩

/-- Explores from the first key, doing at most `fuel` keys.  `moves account k` are the moves of `k`
with the account after them. -/
def explore (moves : σ → κ → Except ε (σ × List (Label × κ))) (fuel : Nat) (account : σ)
    (first : κ) : Except ε (Exploration κ) :=
  advance moves fuel account (start first)

/-- The node of the key with a number. -/
def node (e : Exploration κ) (origin : κ → StateSet) (accepting : κ → Bool) (i : Nat) (k : κ) :
    Node :=
  { name := Automaton.defaultName i
    accepting := accepting k
    origin := some (origin k)
    arrows := OrderedSet.ofList ((e.rows[i]?.getD []).map fun m => ⟨m.1, m.2⟩) }

/-- The automaton of an exploration: one state a key, the first one initial. -/
def toAutomaton (e : Exploration κ) (origin : κ → StateSet) (accepting : κ → Bool) : Automaton :=
  { nodes := (e.met.keys.toList.mapIdx (e.node origin accepting)).toArray, initial := some 0 }

end Exploration

end PatternAutomata
