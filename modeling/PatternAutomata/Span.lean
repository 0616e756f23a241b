import PatternAutomata.Label

/-!
# Spans of characters with a target

A list of spans that ascend without overlap writes down a partial function from characters to
targets.  `merge` joins neighbours with one target when no character lies between them, so that
`a-m` and `n-z` with one target become `a-z`.
-/

namespace PatternAutomata

open StrictTotal

/-- The characters from `lo` to `hi`, all with one target. -/
structure Span (α : Type) where
  lo : Char
  hi : Char
  target : α
deriving DecidableEq

namespace Span

variable {α β : Type}

/-- Spans by their first character, then by their last, then by their target. -/
instance [StrictTotal α] : StrictTotal (Span α) :=
  comap (fun s => (s.lo, s.hi, s.target)) fun
    | ⟨_, _, _⟩, ⟨_, _, _⟩, h => by cases h; rfl

/-- Whether `c` lies between the ends. -/
def covers (s : Span α) (c : Char) : Bool :=
  decide (s.lo.toNat ≤ c.toNat) && decide (c.toNat ≤ s.hi.toNat)

/-- The same characters with another target. -/
def map (f : α → β) (s : Span α) : Span β := ⟨s.lo, s.hi, f s.target⟩

/-- The label for the characters of a span. -/
def label (s : Span α) : Label := Label.spanning s.lo s.hi

/-- Whether `t` goes on where `s` ends, to the same target. -/
def continuedBy [DecidableEq α] (s t : Span α) : Bool :=
  decide (s.target = t.target) && decide (Scalar.next? s.hi = some t.lo)

/-- Joins spans to `pending`, the span that may still grow, as long as they continue it. -/
def mergeFrom [DecidableEq α] (pending : Span α) : List (Span α) → List (Span α)
  | [] => [pending]
  | s :: rest =>
    if pending.continuedBy s then mergeFrom ⟨pending.lo, s.hi, pending.target⟩ rest
    else pending :: mergeFrom s rest

/-- Joins each run of spans in which every one continues the one before. -/
def merge [DecidableEq α] : List (Span α) → List (Span α)
  | [] => []
  | s :: rest => mergeFrom s rest

/-- The target of a character in a list of spans. -/
def find? (spans : List (Span α)) (c : Char) : Option α :=
  (spans.find? fun s => s.covers c).map target

end Span

end PatternAutomata
