import PatternAutomata.Pattern.Token

/-!
# Explicit patterns

A pattern as written has shorthand: classes `[ab0-9]`, the wildcard `.`, and operands that simply
follow one another.  `explicit` writes it out: a class becomes a parenthesized alternation of its
items, the wildcard one of the three ranges of symbols, and `&` is put wherever one operand ends and
the next begins.
-/

namespace PatternAutomata.Pattern

open Token

/-- The characters besides symbols that a pattern may hold. -/
def allowedOperators : List Char := ['*', '+', '?', '(', ')', '[', ']', '.', '|', '-', '&']

/-- Refuses the first character outside the alphabet. -/
def checkAlphabet (text : List Char) : Except PatternError Unit :=
  match text.find? fun c => !isSymbol c && !decide (c ∈ allowedOperators) with
  | some c => .error (.invalidSymbol c)
  | none => .ok ()

/-! ## Classes -/

/-- Operands with the sign of alternation between them. -/
def alternatives : List Token → List Token
  | [] => []
  | [t] => [t]
  | t :: u :: rest => t :: op .alternation :: alternatives (u :: rest)

/-- Alternatives in parentheses. -/
def grouped (items : List Token) : List Token := leftParen :: alternatives items ++ [rightParen]

/-- What the wildcard stands for. -/
def wildcard : List Token := [range 'a' 'z', range 'A' 'Z', range '0' '9']

/-- The items of a class from some place on; `body` is the whole of it. -/
def itemsFrom (body : List Char) : List Char → Except PatternError (List Token)
  | [] => .ok []
  | c :: dash :: hi :: rest =>
    if !isSymbol c then .error (.invalidClass body)
    else if dash = '-' then
      if isSymbol hi then do
        checkRange c hi
        let items ← itemsFrom body rest
        .ok (range c hi :: items)
      else .error (.invalidClass body)
    else do
      let items ← itemsFrom body (dash :: hi :: rest)
      .ok (symbol c :: items)
  | c :: rest =>
    if !isSymbol c || decide (rest = ['-']) then .error (.invalidClass body)
    else do
      let items ← itemsFrom body rest
      .ok (symbol c :: items)

/-- The items of a class: symbols and ranges, and at least one. -/
def classItems (body : List Char) : Except PatternError (List Token) := do
  let items ← itemsFrom body body
  if items.isEmpty then .error (.invalidClass body) else .ok items

/-- The tokens of a character that belongs to no range and opens no class. -/
def expandChar (c : Char) : Except PatternError (List Token) :=
  if c = ']' then .error .unmatchedBracket
  else if c = '.' then .ok (grouped wildcard)
  else if c = '-' then .error .misplacedRangeOperator
  else (ofChar c).map fun t => [t]

mutual

/-- The tokens of a pattern outside of classes. -/
def expand : List Char → Except PatternError (List Token)
  | [] => .ok []
  | c :: dash :: hi :: rest =>
    if isSymbol c && decide (dash = '-') then
      if isSymbol hi then do
        checkRange c hi
        let tokens ← expand rest
        .ok (range c hi :: tokens)
      else .error .misplacedRangeOperator
    else if c = '[' then expandClass [] (dash :: hi :: rest)
    else do
      let head ← expandChar c
      let tokens ← expand (dash :: hi :: rest)
      .ok (head ++ tokens)
  | c :: rest =>
    if isSymbol c && decide (rest = ['-']) then .error .misplacedRangeOperator
    else if c = '[' then expandClass [] rest
    else do
      let head ← expandChar c
      let tokens ← expand rest
      .ok (head ++ tokens)

/-- The tokens of a pattern inside of a class, of which `body` has been read. -/
def expandClass (body : List Char) : List Char → Except PatternError (List Token)
  | [] => .error .unmatchedBracket
  | c :: rest =>
    if c = ']' then do
      let items ← classItems body
      let tokens ← expand rest
      .ok (grouped items ++ tokens)
    else expandClass (body ++ [c]) rest

end

/-! ## Concatenation -/

/-- Whether something ends with this token that takes nothing more: a group or an operand with
its operators. -/
def closes : Token → Bool
  | rightParen => true
  | op o => o.isUnary
  | _ => false

/-- Whether this token goes on with what stands before it. -/
def continues : Token → Bool
  | rightParen => true
  | op o => o.isUnary || decide (o = .alternation) || decide (o = .concat)
  | _ => false

/-- Whether concatenation is meant between two neighbours. -/
def concatBetween (t u : Token) : Bool :=
  (closes t && !continues u) || (t.isOperand && (u.isOperand || decide (u = leftParen)))

/-- The tokens with every concatenation written out. -/
def withConcat : List Token → List Token
  | [] => []
  | [t] => [t]
  | t :: u :: rest =>
    if concatBetween t u then t :: op .concat :: withConcat (u :: rest)
    else t :: withConcat (u :: rest)

/-- The explicit form of a pattern. -/
def explicit (text : List Char) : Except PatternError (List Char) := do
  checkAlphabet text
  let tokens ← expand text
  .ok (render (withConcat tokens))

end PatternAutomata.Pattern
