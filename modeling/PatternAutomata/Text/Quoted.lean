import PatternAutomata.Text.ExtendingMark

/-!
# Characters and texts in quotes

Messages show a character as `'c'`.  The quote in use and the backslash are escaped by a
backslash; NUL, tab, line feed and carriage return are written `\0`, `\t`, `\n`, `\r`; whatever
does not stand on its own is written as its code point in hexadecimal.
-/

namespace PatternAutomata.Text

/-- The code point in lower-case hexadecimal without leading zeros, as `\u` and braces. -/
def escapeCodePoint (c : Char) : List Char :=
  ['\\', 'u', '\x7b'] ++ Nat.toDigits 16 c.toNat ++ ['\x7d']

/-- A character as it is written between quotes of the kind `quote`. -/
def escapeChar (quote c : Char) : List Char :=
  if c = '\x00' then ['\\', '0']
  else if c = '\t' then ['\\', 't']
  else if c = '\n' then ['\\', 'n']
  else if c = '\r' then ['\\', 'r']
  else if c = quote ∨ c = '\\' then ['\\', c]
  else if isExtendingMark c || !isPrintable c then escapeCodePoint c
  else [c]

/-- A character in single quotes. -/
def quotedChar (c : Char) : String := String.ofList (['\''] ++ escapeChar '\'' c ++ ['\''])

/-- A text in double quotes. -/
def quotedString (s : String) : String :=
  String.ofList (['"'] ++ s.toList.flatMap (escapeChar '"') ++ ['"'])

end PatternAutomata.Text
