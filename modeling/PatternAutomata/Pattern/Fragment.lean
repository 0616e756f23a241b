import PatternAutomata.Automaton.Basic
import PatternAutomata.Pattern.Token

/-!
# Automata from postorder texts

A postorder text is evaluated on a stack of fragments.  A fragment has one entry and one exit, and
operators join fragments by empty moves.  An operand stays a pending label until an operator takes
it, so that two symbols can still become a range; its two states are numbered only then.
-/

namespace PatternAutomata

/-- A part of an automaton under construction. -/
inductive Fragment where
  /-- One arrow whose states do not exist yet. -/
  | pending (label : Label)
  /-- A part with its entry and its exit. -/
  | built (entry exit : State)
deriving DecidableEq

/-- An automaton under construction, with the fragments that wait for an operator, last first. -/
structure Assembly where
  automaton : Automaton := {}
  stack : List Fragment := []
deriving DecidableEq

namespace Automaton

/-- Adds an empty move between members. -/
def link (a : Automaton) (source dest : State) : Automaton := a.connect source .epsilon dest

/-- Builds a fragment, unless it is built: the automaton with its entry and its exit. -/
def build (a : Automaton) : Fragment → Automaton × State × State
  | .pending l =>
    let entry := a.size
    let exit := a.size + 1
    (a.addState.addState.connect entry l exit, entry, exit)
  | .built entry exit => (a, entry, exit)

end Automaton

namespace Assembly

/-- Puts a fragment on the stack. -/
def push (b : Assembly) (f : Fragment) : Assembly := { b with stack := f :: b.stack }

/-- Two fragments, one after the other. -/
def concat (a : Automaton) (left right : Fragment) : Automaton × Fragment :=
  let (a, leftEntry, leftExit) := a.build left
  let (a, rightEntry, rightExit) := a.build right
  (a.link leftExit rightEntry, .built leftEntry rightExit)

/-- One fragment or the other, between a new entry and a new exit. -/
def alternate (a : Automaton) (left right : Fragment) : Automaton × Fragment :=
  let (a, leftEntry, leftExit) := a.build left
  let (a, rightEntry, rightExit) := a.build right
  let entry := a.size
  let exit := a.size + 1
  let a := a.addState.addState
  ((((a.link entry leftEntry).link entry rightEntry).link leftExit exit).link rightExit exit,
    .built entry exit)

/-- A fragment once or more, between a new entry and a new exit; with `skip`, also not at all. -/
def repeated (skip : Bool) (a : Automaton) (inner : Fragment) : Automaton × Fragment :=
  let (a, innerEntry, innerExit) := a.build inner
  let entry := a.size
  let exit := a.size + 1
  let a := a.addState.addState
  let a := ((a.link entry innerEntry).link innerExit exit).link innerExit innerEntry
  (if skip then a.link entry exit else a, .built entry exit)

/-- A fragment once or not at all, behind a new entry. -/
def skippable (a : Automaton) (inner : Fragment) : Automaton × Fragment :=
  let (a, innerEntry, innerExit) := a.build inner
  let entry := a.size
  let a := a.addState
  ((a.link entry innerEntry).link entry innerExit, .built entry innerExit)

/-- The range between two symbols that have not been built. -/
def composeRange : Fragment → Fragment → Except PatternError Fragment
  | .pending (.symbol lo), .pending (.symbol hi) => do
    checkRange lo hi
    .ok (.pending (.range lo hi))
  | _, _ => .error .invalidRangeOperands

/-- Applies an operator to the fragments on top of the stack. -/
def apply (b : Assembly) (o : Operator) : Except PatternError Assembly :=
  match o, b.stack with
  | .concat, right :: left :: rest =>
    let (a, f) := concat b.automaton left right
    .ok ⟨a, f :: rest⟩
  | .alternation, right :: left :: rest =>
    let (a, f) := alternate b.automaton left right
    .ok ⟨a, f :: rest⟩
  | .plus, inner :: rest =>
    let (a, f) := repeated false b.automaton inner
    .ok ⟨a, f :: rest⟩
  | .star, inner :: rest =>
    let (a, f) := repeated true b.automaton inner
    .ok ⟨a, f :: rest⟩
  | .optional, inner :: rest =>
    let (a, f) := skippable b.automaton inner
    .ok ⟨a, f :: rest⟩
  | .range, right :: left :: rest => do
    let f ← composeRange left right
    .ok ⟨b.automaton, f :: rest⟩
  | o, _ => .error (.missingOperand o)

/-- Takes one token. -/
def take (b : Assembly) : Token → Except PatternError Assembly
  | .symbol c => .ok (b.push (.pending (.symbol c)))
  | .range lo hi => .ok (b.push (.pending (.range lo hi)))
  | .op o => b.apply o
  | .leftParen | .rightParen => .error .unmatchedParenthesis

/-- The automaton when all tokens are taken: nothing stands for the empty text alone. -/
def finish (b : Assembly) : Except PatternError Automaton :=
  match b.stack with
  | [] =>
    let s := b.automaton.size
    let a := b.automaton.addState
    .ok { a.modifyNode s (fun n => { n with accepting := true }) with initial := some s }
  | [f] =>
    let (a, entry, exit) := b.automaton.build f
    .ok { a.modifyNode exit (fun n => { n with accepting := true }) with initial := some entry }
  | stack => .error (.danglingOperands stack.length)

end Assembly

/-- The automaton of a postorder text. -/
def Automaton.ofPostorder (text : List Char) : Except PatternError Automaton := do
  let tokens ← Token.scanSingly text
  let assembly ← tokens.foldlM Assembly.take {}
  assembly.finish

end PatternAutomata
