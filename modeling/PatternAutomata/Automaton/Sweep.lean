import PatternAutomata.Automaton.Reach
import PatternAutomata.Span

/-!
# Cutting overlapping labels into disjoint spans

The labels out of a set of states may overlap.  Between two neighbouring *points*, where a label
begins or has just ended, every character is admitted by the same labels, so the points cut the
characters into spans with one list of destinations each.  The sweep passes the points in order and
keeps the destinations of the labels that are open, once for each label.
-/

namespace PatternAutomata

namespace Span

/-- Where a label begins, and the character after each that ends. -/
def points (spans : List (Span State)) : OrderedSet Char :=
  OrderedSet.ofList (spans.flatMap fun s => s.lo :: (Scalar.next? s.hi).toList)

/-- Targets of the spans that begin at `p`. -/
def startingAt (spans : List (Span State)) (p : Char) : List State :=
  (spans.filter fun s => decide (s.lo = p)).map target

/-- Targets of the spans that end just before `p`. -/
def endingBefore (spans : List (Span State)) (p : Char) : List State :=
  (spans.filter fun s => decide (Scalar.next? s.hi = some p)).map target

/-- The open targets after passing `p`: what ends is closed before what begins is opened. -/
def pass (spans : List (Span State)) (opened : List State) (p : Char) : List State :=
  (endingBefore spans p).foldl List.erase opened ++ startingAt spans p

/-- The span from one point to just before another, if any target is open. -/
def between (opened : List State) (lo hi : Char) : List (Span StateSet) :=
  if opened.isEmpty then [] else [⟨lo, hi, OrderedSet.ofList opened⟩]

/-- The spans from the point `lo` on, with `opened` open there. -/
def sweepFrom (spans : List (Span State)) (opened : List State) (lo : Char) :
    List Char → List (Span StateSet)
  | [] => between opened lo Scalar.last
  | p :: ps =>
    (match Scalar.prev? p with
      | some hi => between opened lo hi
      | none => []) ++ sweepFrom spans (pass spans opened p) p ps

/-- Disjoint ascending spans, each with the targets of all spans that cover it. -/
def sweep (spans : List (Span State)) : List (Span StateSet) :=
  match (points spans).toList with
  | [] => []
  | p :: ps => sweepFrom spans (pass spans [] p) p ps

end Span

namespace Automaton

/-- The characters of each label out of a set, with the destination. -/
def spans (a : Automaton) (set : StateSet) : List (Span State) :=
  set.toList.flatMap fun s => (a.arrows s).filterMap fun r =>
    r.label.bounds?.map fun b => ⟨b.1, b.2, r.dest⟩

/-- Disjoint spans of characters, each with the destinations of all labels that admit it. -/
def disjointMoves (a : Automaton) (set : StateSet) : List (Span StateSet) :=
  Span.sweep (a.spans set)

/-- The labels out of a set: touching spans that lead to one closed set are one label. -/
def subsetMoves (a : Automaton) (set : StateSet) : List (Label × StateSet) :=
  (Span.merge ((a.disjointMoves set).map fun m => m.map fun t => a.closure t.toList)).map
    fun m => (m.label, m.target)

end Automaton

end PatternAutomata
