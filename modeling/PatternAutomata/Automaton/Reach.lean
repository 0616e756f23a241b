import PatternAutomata.Automaton.Basic

/-!
# States within reach

`reach n succ seeds` collects the states below `n` that some seed reaches by steps of `succ`.  A
`Search` marks each state when it is met and then looks at it once: the states to do are the marked
ones whose steps have not been followed.  As no state is met twice, `n` looks suffice.

Three notions are instances: the closure under empty moves, the states that the initial state
reaches, and the states from which an accepting state is reached.
-/

namespace PatternAutomata

/-- Marks on the states that have been met, and the met ones that are still to do. -/
structure Search where
  met : Array Bool
  todo : List State

namespace Search

/-- Nothing is met among `n` states. -/
def start (n : Nat) : Search := ⟨Array.replicate n false, []⟩

/-- Meets a state.  A state without a mark is one that has been met or does not exist. -/
def meet : Search → State → Search
  | ⟨met, todo⟩, s =>
    if met[s]? = some false then ⟨met.setIfInBounds s true, s :: todo⟩ else ⟨met, todo⟩

/-- Looks at `fuel` states at most: each one meets its successors. -/
def run (succ : State → List State) : Nat → Search → Search
  | 0, x => x
  | fuel + 1, ⟨met, todo⟩ =>
    match todo with
    | [] => ⟨met, []⟩
    | s :: rest => run succ fuel ((succ s).foldl meet ⟨met, rest⟩)

/-- Whether a state has been met. -/
def has (x : Search) (s : State) : Bool := x.met[s]?.getD false

end Search

/-- Puts the numbers below `n` that pass a test in front of a list. -/
def prependBelow (p : State → Bool) : Nat → List State → List State
  | 0, l => l
  | n + 1, l => prependBelow p n (if p n then n :: l else l)

theorem prependBelow_eq (p : State → Bool) (n : Nat) (l : List State) :
    prependBelow p n l = (List.range n).filter p ++ l := by
  induction n generalizing l with
  | zero => rfl
  | succ n ih =>
    rw [prependBelow, ih, List.range_succ, List.filter_append, List.append_assoc]
    by_cases h : p n = true <;> simp [h]

/-- The states below `n` that pass a test. -/
def statesBelow (n : Nat) (p : State → Bool) : StateSet :=
  ⟨prependBelow p n [], by
    rw [prependBelow_eq, List.append_nil]
    exact List.pairwise_lt_range.filter p⟩

@[simp] theorem mem_statesBelow {n : Nat} {p : State → Bool} {s : State} :
    s ∈ statesBelow n p ↔ s < n ∧ p s = true := by
  show s ∈ prependBelow p n [] ↔ _
  rw [prependBelow_eq, List.append_nil, List.mem_filter, List.mem_range]

/-- The search among `n` states from some seeds. -/
def searchFrom (n : Nat) (succ : State → List State) (seeds : List State) : Search :=
  Search.run succ n (seeds.foldl Search.meet (Search.start n))

/-- The states below `n` that some seed reaches. -/
def reach (n : Nat) (succ : State → List State) (seeds : List State) : StateSet :=
  statesBelow n (searchFrom n succ seeds).has

namespace Automaton

/-- The destinations of all arrows out of a state. -/
def successors (a : Automaton) (s : State) : List State := (a.arrows s).map Arrow.dest

/-- The destinations of the empty moves out of a state. -/
def epsilonSuccessors (a : Automaton) (s : State) : List State :=
  ((a.arrows s).filter fun r => r.label.isEpsilon).map Arrow.dest

/-- For each of `n` states, the sources of the edges to it. -/
def sourceTable (n : Nat) (edges : List Edge) : Array (List State) :=
  edges.foldl (fun table e => table.modify e.dest (e.source :: ·)) (Array.replicate n [])

/-- The given states and all that empty moves reach from them. -/
def closure (a : Automaton) (seeds : List State) : StateSet :=
  reach a.size a.epsilonSuccessors seeds

/-- The closure of states that may be foreign, refused at the first one that is. -/
def checkedClosure (a : Automaton) (seeds : List State) : Except Misuse StateSet :=
  match seeds.find? fun s => decide (a.size ≤ s) with
  | some s => .error (.foreignSeed s)
  | none => .ok (a.closure seeds)

/-- The states that the initial state reaches. -/
def reachable (a : Automaton) : StateSet := reach a.size a.successors a.initial.toList

/-- The search against the arrows, from the accepting states on. -/
def searchBack (a : Automaton) : Search :=
  let sources := sourceTable a.size a.edges
  searchFrom a.size (fun t => sources[t]?.getD []) a.acceptStates

/-- The states from which an accepting state is reached. -/
def productive (a : Automaton) : StateSet := statesBelow a.size a.searchBack.has

/-- The states on some way from the initial state to an accepting one. -/
def live (a : Automaton) : StateSet :=
  let back := a.searchBack
  a.reachable.filter back.has

/-- Whether some state is not live. -/
def hasDeadStates (a : Automaton) : Bool := decide (a.live.size < a.size)

/-! ## Lemmas -/

theorem lt_size_of_mem_reachable {a : Automaton} {s : State} (h : s ∈ a.reachable) :
    s < a.size := (mem_statesBelow.1 h).1

theorem mem_live_iff {a : Automaton} {s : State} :
    s ∈ a.live ↔ s ∈ a.reachable ∧ s ∈ a.productive := by
  rw [live, OrderedSet.mem_filter, productive, mem_statesBelow]
  exact and_congr_right fun h => (and_iff_right (lt_size_of_mem_reachable h)).symm

theorem mem_sourceTable {n : Nat} {edges : List Edge} {s t : State} (ht : t < n) :
    s ∈ ((sourceTable n edges)[t]?.getD []) ↔ ∃ e ∈ edges, e.source = s ∧ e.dest = t := by
  have key : ∀ (edges : List Edge) (table : Array (List State)), t < table.size →
      (s ∈ ((edges.foldl (fun table e => table.modify e.dest (e.source :: ·)) table)[t]?.getD []) ↔
        (∃ e ∈ edges, e.source = s ∧ e.dest = t) ∨ s ∈ table[t]?.getD []) := by
    intro edges
    induction edges with
    | nil => simp
    | cons e edges ih =>
      intro table h
      rw [List.foldl_cons, ih _ (by simpa using h), Array.getElem?_modify,
        Array.getElem?_eq_getElem h]
      by_cases hd : e.dest = t
      · simp [hd, or_assoc, or_left_comm, eq_comm]
      · simp [hd]
  rw [sourceTable, key _ _ (by simpa using ht), Array.getElem?_replicate]
  simp [ht]

end Automaton

end PatternAutomata
