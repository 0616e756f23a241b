import PatternAutomata.Pattern.Precedence
import PatternAutomata.Pattern.Token

/-!
# Postorder texts

In postorder each operator stands behind its operands, and parentheses are gone.  `postorder` reads
an explicit pattern with a stack of operators and groups that wait: an operator first releases the
waiting operators of its group down to the first that binds less tightly, so operators of one level
group to the left.  A range is written as its two bounds and the range operator.
-/

namespace PatternAutomata

/-- What waits for its place: an open group, or an operator with its level. -/
inductive Waiting where
  | group
  | op (o : Operator) (level : Nat)
deriving DecidableEq

namespace Waiting

/-- The operators that one of this level releases, and what keeps waiting. -/
def release (level : Nat) : List Waiting → List Token × List Waiting
  | .op o l :: stack =>
    if l ≤ level then
      let (ops, rest) := release level stack
      (.op o :: ops, rest)
    else ([], .op o l :: stack)
  | stack => ([], stack)

/-- The operators of the innermost group, and what waits outside of it. -/
def closeGroup : List Waiting → Except PatternError (List Token × List Waiting)
  | [] => .error .unmatchedParenthesis
  | .group :: stack => .ok ([], stack)
  | .op o _ :: stack => do
    let (ops, rest) ← closeGroup stack
    .ok (.op o :: ops, rest)

/-- The operators that wait at the end, when no group is open. -/
def releaseAll : List Waiting → Except PatternError (List Token)
  | [] => .ok []
  | .group :: _ => .error .unmatchedParenthesis
  | .op o _ :: stack => do
    let ops ← releaseAll stack
    .ok (.op o :: ops)

end Waiting

namespace Precedence

open Waiting

/-- The tokens of an explicit pattern in postorder, with `stack` waiting. -/
def reorder (p : Precedence) : List Waiting → List Token → Except PatternError (List Token)
  | stack, [] => releaseAll stack
  | stack, .symbol c :: rest => do
    let out ← p.reorder stack rest
    .ok (.symbol c :: out)
  | stack, .range lo hi :: rest => do
    let out ← p.reorder stack rest
    .ok (.symbol lo :: .symbol hi :: .op .range :: out)
  | stack, .leftParen :: rest => p.reorder (.group :: stack) rest
  | stack, .rightParen :: rest => do
    let (ops, stack') ← closeGroup stack
    let out ← p.reorder stack' rest
    .ok (ops ++ out)
  | stack, .op o :: rest =>
    match p.level? o with
    | none => .error (.unknownOperator o)
    | some level => do
      let (ops, stack') := release level stack
      let out ← p.reorder (.op o level :: stack') rest
      .ok (ops ++ out)

/-- The postorder text of an explicit pattern. -/
def postorder (p : Precedence) (text : List Char) : Except PatternError (List Char) := do
  let tokens ← Token.scan text
  let out ← p.reorder [] tokens
  .ok (Token.render out)

end Precedence

end PatternAutomata
