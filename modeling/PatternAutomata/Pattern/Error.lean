import PatternAutomata.Text.Quoted

/-!
# Operators, and what can be wrong with a pattern

The operators of patterns with their characters, and the causes for which a pattern, an explicit
pattern or a postorder text is refused, with their texts.
-/

namespace PatternAutomata

/-- An operator of patterns. -/
inductive Operator where
  /-- Zero or more times. -/
  | star
  /-- One or more times. -/
  | plus
  /-- Once or not at all. -/
  | optional
  /-- One after the other. -/
  | concat
  /-- One or the other. -/
  | alternation
  /-- From one symbol to another. -/
  | range
deriving DecidableEq

namespace Operator

/-- The operators in order. -/
def all : List Operator := [star, plus, optional, concat, alternation, range]

/-- The character that spells an operator. -/
def symbol : Operator → Char
  | star => '*'
  | plus => '+'
  | optional => '?'
  | concat => '&'
  | alternation => '|'
  | range => '-'

/-- The operator that a character spells. -/
def ofSymbol? (c : Char) : Option Operator := all.find? fun o => decide (o.symbol = c)

/-- Number of operands. -/
def arity : Operator → Nat
  | star | plus | optional => 1
  | concat | alternation | range => 2

/-- Whether an operator stands behind its one operand. -/
def isUnary (o : Operator) : Bool := decide (o.arity = 1)

theorem ofSymbol?_eq_some_iff {c : Char} {o : Operator} : ofSymbol? c = some o ↔ c = o.symbol := by
  constructor
  · intro h
    unfold ofSymbol? at h
    have hc := List.find?_some h
    exact (of_decide_eq_true hc).symm
  · rintro rfl
    cases o <;> rfl

end Operator

/-- Why a pattern is refused. -/
inductive PatternError where
  /-- A character outside the alphabet. -/
  | invalidSymbol (c : Char)
  /-- A square bracket without its partner. -/
  | unmatchedBracket
  /-- Bounds of different kinds, or not ascending. -/
  | invalidRange (lo hi : Char)
  /-- A class with this body is empty or holds something else than symbols and ranges. -/
  | invalidClass (body : List Char)
  /-- A dash that joins no two symbols. -/
  | misplacedRangeOperator
  /-- A parenthesis without its partner. -/
  | unmatchedParenthesis
  /-- An operator without a level. -/
  | unknownOperator (o : Operator)
  /-- An operator with fewer operands before it than it takes. -/
  | missingOperand (o : Operator)
  /-- More than one operand remains at the end. -/
  | danglingOperands (count : Nat)
  /-- The range operator behind something else than two symbols. -/
  | invalidRangeOperands
deriving DecidableEq

namespace PatternError

/-- The text of an error. -/
def message : PatternError → String
  | invalidSymbol c => s!"Invalid symbol {Text.quotedChar c}"
  | unmatchedBracket => "Unmatched square brackets"
  | invalidRange lo hi => s!"Invalid range: {lo}-{hi}"
  | invalidClass body => s!"Invalid character class: [{String.ofList body}]"
  | misplacedRangeOperator => "Range operator '-' outside of a range"
  | unmatchedParenthesis => "Unmatched parenthesis"
  | unknownOperator o => s!"Operator {Text.quotedChar o.symbol} has no precedence"
  | missingOperand o => s!"Invalid regex: operator {o.symbol} expects {o.arity} operand(s)"
  | danglingOperands count =>
    s!"Invalid regex: {count} operands left without an operator joining them"
  | invalidRangeOperands => "Invalid regex: range operator requires two single symbols"

end PatternError

end PatternAutomata
