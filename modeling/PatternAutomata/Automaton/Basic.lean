import PatternAutomata.Label
import PatternAutomata.StateSet

/-!
# Automata

An automaton is an array of nodes and perhaps an initial state; a state is the place of its node.
Each node keeps its outgoing arrows as an ordered set, so an automaton depends on which arrows were
added and not on the order or number of the calls:

    ⟨l, t⟩ ∈ (a.connect s l t).arrows s                                     (mem_arrows_connect)
    a.edges lists every arrow once, by source, then label, then destination

`addTransition`, `setAccepting` and `setInitial` refuse states that are not members.  What every
operation keeps is `WellFormed`: arrows and the initial state lead to members.
-/

namespace PatternAutomata

open StrictTotal

/-- A labelled move to a state. -/
structure Arrow where
  label : Label
  dest : State
deriving DecidableEq

/-- Arrows by label, then by destination. -/
instance : StrictTotal Arrow :=
  comap (fun a => (a.label, a.dest)) fun ⟨_, _⟩ ⟨_, _⟩ h => by cases h; rfl

/-- What an automaton knows of one state. -/
structure Node where
  /-- Shown in tables, and the key of the state in records. -/
  name : String
  accepting : Bool := false
  /-- The states of another automaton that this one stands for. -/
  origin : Option StateSet := none
  arrows : OrderedSet Arrow := OrderedSet.empty
deriving DecidableEq

/-- A finite automaton, deterministic or not. -/
structure Automaton where
  nodes : Array Node := #[]
  initial : Option State := none
deriving DecidableEq

namespace Automaton

/-- The automaton without states. -/
def empty : Automaton := {}

/-! ## Looking -/

/-- Number of states. -/
def size (a : Automaton) : Nat := a.nodes.size

/-- The states in order. -/
def states (a : Automaton) : List State := List.range a.size

/-- Whether a state belongs to the automaton. -/
def contains (a : Automaton) (s : State) : Bool := decide (s < a.size)

/-- The node of a state, refused when it is not a member. -/
def node (a : Automaton) (s : State) : Except Misuse Node :=
  match a.nodes[s]? with
  | some n => .ok n
  | none => .error (.foreignState s)

/-- The outgoing arrows of a state, by label and destination. -/
def arrows (a : Automaton) (s : State) : List Arrow :=
  match a.nodes[s]? with
  | some n => n.arrows.toList
  | none => []

/-- Whether a state accepts. -/
def accepting (a : Automaton) (s : State) : Bool :=
  match a.nodes[s]? with
  | some n => n.accepting
  | none => false

/-- The name of a state. -/
def name (a : Automaton) (s : State) : String :=
  match a.nodes[s]? with
  | some n => n.name
  | none => ""

/-- The set of states that a state stands for, if it stands for one. -/
def origin? (a : Automaton) (s : State) : Option StateSet :=
  match a.nodes[s]? with
  | some n => n.origin
  | none => none

/-- The first state with a name. -/
def find? (a : Automaton) (name : String) : Option State :=
  a.nodes.toList.findIdx? fun n => decide (n.name = name)

/-- The accepting states, in order. -/
def acceptStates (a : Automaton) : List State := a.states.filter a.accepting

/-- Number of arrows. -/
def arrowCount (a : Automaton) : Nat := a.nodes.foldl (fun k n => k + n.arrows.size) 0

/-- Arrows that share a label, joined: each label with its destinations. -/
def groupByLabel : List Arrow → List (Label × List State)
  | [] => []
  | a :: rest =>
    match groupByLabel rest with
    | [] => [(a.label, [a.dest])]
    | (l, dests) :: groups =>
      if a.label = l then (l, a.dest :: dests) :: groups
      else (a.label, [a.dest]) :: (l, dests) :: groups

/-- The labels out of a state in order, each with its destinations in order. -/
def next (a : Automaton) (s : State) : List (Label × List State) := groupByLabel (a.arrows s)

/-! ## Building -/

/-- The name of the state at place `n` when nobody names it. -/
def defaultName (n : Nat) : String := s!"S{n}"

/-- Adds a node; its state is the old number of states. -/
def addNode (a : Automaton) (n : Node) : Automaton := { a with nodes := a.nodes.push n }

/-- Adds a state with a default name. -/
def addState (a : Automaton) : Automaton :=
  let name := defaultName a.size
  a.addNode { name := name }

/-- Changes the node of a state. -/
def modifyNode (a : Automaton) (s : State) (f : Node → Node) : Automaton :=
  { a with nodes := a.nodes.modify s f }

/-- Adds an arrow between members. -/
def connect (a : Automaton) (source : State) (label : Label) (dest : State) : Automaton :=
  a.modifyNode source fun n => { n with arrows := n.arrows.insert ⟨label, dest⟩ }

/-- Adds an arrow, looking at its source first and then at its destination. -/
def addTransition (a : Automaton) (source : State) (label : Label) (dest : State) :
    Except Misuse Automaton :=
  if ¬ source < a.size then .error (.foreignSource source)
  else if ¬ dest < a.size then .error (.foreignDest dest)
  else .ok (a.connect source label dest)

/-- Makes a state accepting or not. -/
def setAccepting (a : Automaton) (s : State) (flag : Bool) : Except Misuse Automaton :=
  if s < a.size then .ok (a.modifyNode s fun n => { n with accepting := flag })
  else .error (.foreignState s)

/-- Fixes the initial state. -/
def setInitial (a : Automaton) (s : State) : Except Misuse Automaton :=
  if s < a.size then .ok { a with initial := some s } else .error (.foreignState s)

/-! ## Edges -/

end Automaton

/-- An arrow with its source. -/
structure Edge where
  source : State
  label : Label
  dest : State
deriving DecidableEq

/-- Edges by source, then label, then destination. -/
instance : StrictTotal Edge :=
  comap (fun e => (e.source, e.label, e.dest)) fun ⟨_, _, _⟩ ⟨_, _, _⟩ h => by cases h; rfl

/-- Source and destination as numbers, then the label. -/
def Edge.text (e : Edge) : String := s!"{e.source} -> {e.dest} {e.label.text}"

namespace Automaton

/-- Every edge, by source, then label, then destination. -/
def edges (a : Automaton) : List Edge :=
  a.states.flatMap fun s => (a.arrows s).map fun r => ⟨s, r.label, r.dest⟩

/-- Arrows and the initial state lead to members. -/
structure WellFormed (a : Automaton) : Prop where
  dest_lt : ∀ s, ∀ r ∈ a.arrows s, r.dest < a.size
  initial_lt : ∀ s, a.initial = some s → s < a.size

/-! ## Lemmas -/

theorem arrows_of_le {a : Automaton} {s : State} (h : a.size ≤ s) : a.arrows s = [] := by
  unfold arrows
  rw [Array.getElem?_eq_none h]

theorem lt_size_of_mem_arrows {a : Automaton} {s : State} {r : Arrow} (h : r ∈ a.arrows s) :
    s < a.size := by
  apply Nat.lt_of_not_le
  intro hs
  simp [arrows_of_le hs] at h

theorem pairwise_arrows (a : Automaton) (s : State) : (a.arrows s).Pairwise lt := by
  unfold arrows
  split
  · next n _ => exact n.arrows.ascending
  · exact .nil

theorem mem_edges {a : Automaton} {e : Edge} :
    e ∈ a.edges ↔ (⟨e.label, e.dest⟩ : Arrow) ∈ a.arrows e.source := by
  unfold edges states
  rw [List.mem_flatMap]
  constructor
  · rintro ⟨s, -, h⟩
    obtain ⟨r, hr, rfl⟩ := List.mem_map.1 h
    exact hr
  · intro h
    exact ⟨e.source, List.mem_range.2 (lt_size_of_mem_arrows h), List.mem_map.2 ⟨_, h, rfl⟩⟩

@[simp] theorem size_addNode (a : Automaton) (n : Node) : (a.addNode n).size = a.size + 1 := by
  simp [addNode, size]

theorem lt_size_addNode (a : Automaton) (n : Node) : a.size < (a.addNode n).size := by simp

theorem modifyNode_addNode (a : Automaton) (n : Node) (f : Node → Node) :
    (a.addNode n).modifyNode a.size f = a.addNode (f n) := by
  unfold addNode modifyNode size
  refine congrArg (fun nodes => { a with nodes := nodes }) (Array.ext_getElem? fun i => ?_)
  rw [Array.getElem?_modify, Array.getElem?_push, Array.getElem?_push]
  by_cases hi : a.nodes.size = i
  · rw [if_pos hi, if_pos hi.symm, if_pos hi.symm]
    rfl
  · rw [if_neg hi, if_neg (Ne.symm hi), if_neg (Ne.symm hi)]

@[simp] theorem size_connect (a : Automaton) (s : State) (l : Label) (t : State) :
    (a.connect s l t).size = a.size := by
  simp [connect, modifyNode, size]

theorem mem_arrows_connect {a : Automaton} {s t u : State} {l : Label} {r : Arrow}
    (hs : s < a.size) :
    r ∈ (a.connect s l t).arrows u ↔ (u = s ∧ r = ⟨l, t⟩) ∨ r ∈ a.arrows u := by
  unfold arrows connect modifyNode
  simp only [Array.getElem?_modify]
  by_cases h : s = u
  · subst h
    obtain ⟨n, hn⟩ : ∃ n, a.nodes[s]? = some n := ⟨_, Array.getElem?_eq_getElem hs⟩
    simp [hn]
  · have h' : u ≠ s := fun e => h e.symm
    simp [h, h']

theorem mem_groupByLabel {l : Label} {t : State} {rs : List Arrow} :
    (∃ dests, (l, dests) ∈ groupByLabel rs ∧ t ∈ dests) ↔ (⟨l, t⟩ : Arrow) ∈ rs := by
  induction rs with
  | nil => simp [groupByLabel]
  | cons a rest ih =>
    obtain ⟨l', t'⟩ := a
    rw [List.mem_cons, ← ih, groupByLabel]
    split
    · next h =>
      simp only [h, List.mem_singleton, Prod.mk.injEq, Arrow.mk.injEq]
      constructor
      · rintro ⟨ds, ⟨rfl, rfl⟩, ht⟩; exact .inl ⟨rfl, List.mem_singleton.1 ht⟩
      · rintro (⟨rfl, rfl⟩ | ⟨ds, hm, -⟩)
        · exact ⟨_, ⟨rfl, rfl⟩, List.mem_singleton.2 rfl⟩
        · simp at hm
    · next m dests groups h =>
      rw [h]
      split
      · next e =>
        have e' : l' = m := e
        subst e'
        simp only [List.mem_cons, Prod.mk.injEq, Arrow.mk.injEq]
        constructor
        · rintro ⟨ds, (⟨rfl, rfl⟩ | hm), ht⟩
          · rcases List.mem_cons.1 ht with rfl | ht
            · exact .inl ⟨rfl, rfl⟩
            · exact .inr ⟨_, .inl ⟨rfl, rfl⟩, ht⟩
          · exact .inr ⟨_, .inr hm, ht⟩
        · rintro (⟨rfl, rfl⟩ | ⟨ds, (⟨rfl, rfl⟩ | hm), ht⟩)
          · exact ⟨_, .inl ⟨rfl, rfl⟩, List.mem_cons_self⟩
          · exact ⟨_, .inl ⟨rfl, rfl⟩, List.mem_cons_of_mem _ ht⟩
          · exact ⟨_, .inr hm, ht⟩
      · simp only [List.mem_cons, Prod.mk.injEq, Arrow.mk.injEq]
        constructor
        · rintro ⟨ds, (⟨rfl, rfl⟩ | hm), ht⟩
          · exact .inl ⟨rfl, by simpa using ht⟩
          · exact .inr ⟨_, hm, ht⟩
        · rintro (⟨rfl, rfl⟩ | ⟨ds, hm, ht⟩)
          · exact ⟨_, .inl ⟨rfl, rfl⟩, by simp⟩
          · exact ⟨_, .inr hm, ht⟩

theorem ne_nil_of_mem_groupByLabel {l : Label} {dests : List State} {rs : List Arrow}
    (h : (l, dests) ∈ groupByLabel rs) : dests ≠ [] := by
  induction rs generalizing l dests with
  | nil => simp [groupByLabel] at h
  | cons a rest ih =>
    rw [groupByLabel] at h
    split at h
    · simp at h; simp [h]
    · next m ds groups hg =>
      split at h
      · rcases List.mem_cons.1 h with e | h
        · simp [(Prod.mk.injEq .. ▸ e).2]
        · exact ih (hg ▸ List.mem_cons_of_mem _ h)
      · rcases List.mem_cons.1 h with e | h
        · simp [(Prod.mk.injEq .. ▸ e).2]
        · exact ih (hg ▸ h)

end Automaton

end PatternAutomata
