import PatternAutomata.Automaton.Determinize
import PatternAutomata.Automaton.Minimize
import PatternAutomata.Automaton.Record
import PatternAutomata.Pattern.Explicit
import PatternAutomata.Pattern.Fragment
import PatternAutomata.Pattern.Postorder

/-!
# Compiling patterns

A pattern is made explicit, put in postorder, evaluated to an automaton, determinized and
minimized.  A compiler fixes the levels of the operators and perhaps a work limit for the
determinization.
-/

namespace PatternAutomata

/-- Why an operation on automata or patterns fails. -/
inductive Failure where
  | pattern (e : PatternError)
  | record (e : RecordError)
  | tooComplex (e : TooComplex)
  | misuse (m : Misuse)
deriving DecidableEq

namespace Failure

/-- The text of a failure, where it has one. -/
def message? : Failure → Option String
  | pattern e => some e.message
  | record e => some e.message
  | tooComplex e => some e.message
  | misuse m => m.message

/-- The text of a failure to compile. -/
def compileMessage? : Failure → Option String
  | pattern e => some s!"Syntax error: {e.message}"
  | f => f.message?

end Failure

/-- What each step of a compilation gives. -/
structure Stages where
  explicit : List Char
  postorder : List Char
  nfa : Automaton
  dfa : Automaton
  minimal : Automaton

/-- How to compile. -/
structure Compiler where
  precedence : Precedence := Precedence.standard
  limit : Option Nat := none

namespace Compiler

/-- The last step. -/
def conclude (explicit postorder : List Char) (nfa dfa : Automaton) : Except Failure Stages := do
  let minimal ← dfa.minimize.mapError .misuse
  .ok { explicit, postorder, nfa, dfa, minimal }

/-- All steps for a pattern, without a limit. -/
def unbounded (p : Precedence) (text : List Char) : Except Failure Stages := do
  let explicit ← (Pattern.explicit text).mapError .pattern
  let postorder ← (p.postorder explicit).mapError .pattern
  let nfa ← (Automaton.ofPostorder postorder).mapError .pattern
  conclude explicit postorder nfa nfa.determinize

/-- All steps for a pattern, under a limit. -/
def bounded (p : Precedence) (limit : Nat) (text : List Char) : Except Failure Stages := do
  let explicit ← (Pattern.explicit text).mapError .pattern
  let postorder ← (p.postorder explicit).mapError .pattern
  let nfa ← (Automaton.ofPostorder postorder).mapError .pattern
  let dfa ← (nfa.determinizeWithin limit).mapError .tooComplex
  conclude explicit postorder nfa dfa

/-- All steps for a pattern, under the limit if there is one. -/
def stages (c : Compiler) (text : List Char) : Except Failure Stages :=
  match c.limit with
  | none => unbounded c.precedence text
  | some limit => bounded c.precedence limit text

/-- The minimal deterministic automaton of a pattern. -/
def compile (c : Compiler) (text : List Char) : Except Failure Automaton :=
  (c.stages text).map Stages.minimal

end Compiler

/-- The minimal deterministic automaton of a pattern, with the standard levels and no limit. -/
def compile (text : List Char) : Except Failure Automaton := Compiler.compile {} text

end PatternAutomata
