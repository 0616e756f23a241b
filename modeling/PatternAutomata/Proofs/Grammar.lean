import Mathlib.Computability.Language
import PatternAutomata.Pattern.Token

/-!
# The grammar of patterns and what they denote

    alternation   := concatenation (| concatenation)*
    concatenation := repetition (&? repetition)*
    repetition    := atom (* or + or ?)*
    atom          := item or . or [ item+ ] or ( alternation )
    item          := a symbol or a range

`Reads k p e` says that the characters `p` are a phrase of rank `k` with the expression `e`.  Besides
the phrases, nested parentheses around nothing are patterns, and denote the empty text.
-/

namespace PatternAutomata

open Computability

/-- What a pattern says, as a tree. -/
inductive Expr where
  | symbol (c : Char)
  | range (lo hi : Char)
  | concat (e f : Expr)
  | alternation (e f : Expr)
  | star (e : Expr)
  | plus (e : Expr)
  | optional (e : Expr)

namespace Expr

/-- The texts that an expression stands for. -/
def language : Expr → Language Char
  | symbol c => {[c]}
  | range lo hi => {w | ∃ c : Char, w = [c] ∧ lo.toNat ≤ c.toNat ∧ c.toNat ≤ hi.toNat}
  | concat e f => e.language * f.language
  | alternation e f => e.language + f.language
  | star e => e.language∗
  | plus e => e.language * e.language∗
  | optional e => 1 + e.language

/-- A letter of either case, or a digit. -/
def wildcard : Expr :=
  alternation (alternation (range 'a' 'z') (range 'A' 'Z')) (range '0' '9')

end Expr

/-- How tightly the parts of a phrase hold together. -/
inductive Rank where
  | atom
  | repetition
  | concatenation
  | alternation
deriving DecidableEq

/-- A symbol, or two of them with a dash between. -/
inductive Item : List Char → Expr → Prop where
  | symbol {c : Char} : isSymbol c = true → Item [c] (.symbol c)
  | range {lo hi : Char} : isRange lo hi = true → Item [lo, '-', hi] (.range lo hi)

/-- The body of a class: items one after the other, any of which may be meant. -/
inductive Items : List Char → Expr → Prop where
  | one {p : List Char} {e : Expr} : Item p e → Items p e
  | more {p q : List Char} {e f : Expr} : Items p e → Item q f → Items (p ++ q) (.alternation e f)

/-- Whether characters are a phrase of a rank with an expression. -/
inductive Reads : Rank → List Char → Expr → Prop where
  | item {p : List Char} {e : Expr} : Item p e → Reads .atom p e
  | wildcard : Reads .atom ['.'] .wildcard
  | items {p : List Char} {e : Expr} : Items p e → Reads .atom ('[' :: p ++ [']']) e
  | group {p : List Char} {e : Expr} : Reads .alternation p e → Reads .atom ('(' :: p ++ [')']) e
  | atom {p : List Char} {e : Expr} : Reads .atom p e → Reads .repetition p e
  | star {p : List Char} {e : Expr} :
    Reads .repetition p e → Reads .repetition (p ++ ['*']) (.star e)
  | plus {p : List Char} {e : Expr} :
    Reads .repetition p e → Reads .repetition (p ++ ['+']) (.plus e)
  | optional {p : List Char} {e : Expr} :
    Reads .repetition p e → Reads .repetition (p ++ ['?']) (.optional e)
  | repetition {p : List Char} {e : Expr} : Reads .repetition p e → Reads .concatenation p e
  | follow {p q : List Char} {e f : Expr} :
    Reads .concatenation p e → Reads .repetition q f → Reads .concatenation (p ++ q) (.concat e f)
  | concat {p q : List Char} {e f : Expr} :
    Reads .concatenation p e → Reads .repetition q f →
      Reads .concatenation (p ++ '&' :: q) (.concat e f)
  | concatenation {p : List Char} {e : Expr} :
    Reads .concatenation p e → Reads .alternation p e
  | alternation {p q : List Char} {e f : Expr} :
    Reads .alternation p e → Reads .concatenation q f →
      Reads .alternation (p ++ '|' :: q) (.alternation e f)

/-- Parentheses nested `k` deep around nothing. -/
def parens (k : Nat) : List Char := List.replicate k '(' ++ List.replicate k ')'

/-- Whether a pattern denotes a language. -/
inductive Denotes : List Char → Language Char → Prop where
  | parens (k : Nat) : Denotes (parens k) 1
  | expr {p : List Char} {e : Expr} : Reads .alternation p e → Denotes p e.language

end PatternAutomata
