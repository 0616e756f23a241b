import PatternAutomata.Automaton.Determinism
import PatternAutomata.Automaton.Run
import PatternAutomata.Automaton.Exploration
import PatternAutomata.Span

/-!
# Minimizing by partition refinement

The live states, and the initial one in any case, are split into blocks: first by acceptance, then
by where their labels lead in terms of blocks, until no block splits.  The blocks are the states of
the result, numbered breadth first from the block of the initial state.

The *signature* of a state lists its labels with the blocks they lead to, re-cut along the lines
between blocks; what leads to no block is left out like a missing label.  A range that runs
downwards and leads to a block is an error.
-/

namespace PatternAutomata

open StrictTotal

/-- Blocks of states in order, and for each state the place of the block that holds it. -/
structure Partition where
  blocks : Array (List State)
  places : Array (Option Nat)

/-- Labels with the blocks they lead to. -/
abbrev Signature := List (Label × Nat)

namespace Partition

/-- No block yet for `n` states. -/
def empty (n : Nat) : Partition := ⟨#[], Array.replicate n none⟩

/-- Number of blocks. -/
def size (p : Partition) : Nat := p.blocks.size

/-- The members of the block at a place. -/
def block (p : Partition) (i : Nat) : List State := p.blocks[i]?.getD []

/-- The place of the block of a state. -/
def blockOf? (p : Partition) (s : State) : Option Nat := p.places[s]?.join

/-- Adds a block at the end, which takes its members from where they were. -/
def push : Partition → List State → Partition
  | ⟨blocks, places⟩, block =>
    let i := blocks.size
    ⟨blocks.push block, block.foldl (fun places s => places.setIfInBounds s (some i)) places⟩

/-- Splits the block at a place into groups: the first one stays there, the others go to the
end. -/
def split (p : Partition) (i : Nat) : List (List State) → Partition
  | [] => p
  | first :: others =>
    match p with
    | ⟨blocks, places⟩ => others.foldl push ⟨blocks.setIfInBounds i first, places⟩

end Partition

namespace Automaton

/-- The states that take part: the live ones and the initial one. -/
def kept (a : Automaton) : StateSet := (OrderedSet.ofList a.initial.toList).union a.live

/-- The accepting ones of some states and the others, leaving out an empty block. -/
def splitByAcceptance (a : Automaton) (members : List State) : List (List State) :=
  [members.filter a.accepting, members.filter fun s => !a.accepting s].filter fun b => !b.isEmpty

/-- The blocks to begin with. -/
def initialPartition (a : Automaton) : Partition :=
  (a.splitByAcceptance a.kept.toList).foldl Partition.push (Partition.empty a.size)

/-- The characters of each label out of a state, with the block it leads to. -/
def blockSpans (a : Automaton) (p : Partition) (s : State) : List (Span Nat) :=
  (a.arrows s).filterMap fun r => do
    let (lo, hi) ← r.label.bounds?
    let b ← p.blockOf? r.dest
    some ⟨lo, hi, b⟩

/-- Where the labels of a state lead, in terms of blocks. -/
def signature (a : Automaton) (p : Partition) (s : State) : Except Misuse Signature :=
  (Span.merge (sort (a.blockSpans p s))).mapM fun m =>
    (Label.ofBounds m.lo m.hi).map fun l => (l, m.target)

/-- The members of a block by signature, in the order of the signatures. -/
def groupBySignature (members : List (Signature × State)) : List (List State) :=
  (OrderedSet.ofList (members.map Prod.fst).eraseDups).toList.map fun σ =>
    (members.filter fun m => decide (m.1 = σ)).map Prod.snd

/-- Splits the block at a place by signature. -/
def splitBlock (a : Automaton) (p : Partition) (i : Nat) : Except Misuse Partition :=
  let block := p.block i
  if block.length ≤ 1 then .ok p
  else do
    let signatures ← block.mapM (a.signature p)
    .ok (p.split i (groupBySignature (signatures.zip block)))

/-- One round over all blocks from place `i` on, the new ones included. -/
def refineFrom (a : Automaton) : Nat → Nat → Partition → Except Misuse Partition
  | 0, _, p => .ok p
  | fuel + 1, i, p =>
    if i < p.size then do
      let q ← a.splitBlock p i
      a.refineFrom fuel (i + 1) q
    else .ok p

/-- One round over all blocks.  There are never more blocks than states. -/
def refine (a : Automaton) (p : Partition) : Except Misuse Partition := a.refineFrom a.size 0 p

/-- Rounds until one splits no block.  Each other round adds a block. -/
def settle (a : Automaton) : Nat → Partition → Except Misuse Partition
  | 0, p => .ok p
  | fuel + 1, p => do
    let before := p.size
    let q ← a.refine p
    if q.size = before then .ok q else a.settle fuel q

/-- The automaton of the blocks, in which the first member speaks for its block. -/
def quotient (a : Automaton) (p : Partition) (first : Nat) : Except Misuse Automaton := do
  let moves := fun (_ : Unit) (i : Nat) =>
    match p.block i with
    | [] => .ok ((), [])
    | s :: _ => (a.signature p s).map fun σ => ((), σ)
  let e ← Exploration.explore moves p.size () first
  .ok (e.toAutomaton (fun i => OrderedSet.ofList (p.block i)) fun i =>
    (p.block i).any a.accepting)

/-- The least deterministic automaton for the language of a deterministic one. -/
def minimize (a : Automaton) : Except Misuse Automaton :=
  if !a.isDeterministic then .error .nondeterministic
  else
    match a.initial with
    | none => .ok empty
    | some s => do
      let p ← a.settle a.size a.initialPartition
      match p.blockOf? s with
      | none => .ok empty
      | some first => a.quotient p first

end Automaton

end PatternAutomata
