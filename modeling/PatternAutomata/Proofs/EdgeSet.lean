import PatternAutomata.Proofs.Store

/-!
# Edges as a set

Adding edges one after the other, what comes out depends on which edges they are, and not on their
order or on how often each of them comes.  `a.Gains es b` says that `b` has the states of `a`, and the
edges of `a` and those in `es`; each call adds one edge to `es` (`Gains.connect`), so all of them
together add the list (`exists_gains`), and there is one such automaton (`Gains.unique`):

    a.addTransitions es = .ok b → (e ∈ b.edges ↔ e ∈ a.edges ∨ e ∈ es)
    b.edges.Pairwise lt,  b.arrowCount = b.edges.length                     (pairwise_edges, length_edges)

Where an automaton is kept, a state has a set of destinations for each label.  Listed label by label
these ascend as the arrows do (`Slot.toList_arrows`), and a coherent store is the only one that stands
for its automaton (`Store.Coherent.ext`), so the same holds in place.
-/

namespace PatternAutomata

open StrictTotal

theorem Arrow.lt_iff {r r' : Arrow} :
    lt r r' ↔ lt r.label r'.label ∨ r.label = r'.label ∧ r.dest < r'.dest := lt_prod_iff

theorem Edge.lt_iff {e e' : Edge} : lt e e' ↔ e.source < e'.source ∨
    e.source = e'.source ∧ lt (⟨e.label, e.dest⟩ : Arrow) ⟨e'.label, e'.dest⟩ := lt_prod_iff

/-- The edit that adds an edge. -/
def Edge.addition (e : Edge) : Edit := .addTransition e.source e.label e.dest

namespace Automaton

variable {a b b' : Automaton} {es es' : List Edge}

/-! ## The order of the edges -/

theorem pairwise_edges (a : Automaton) : a.edges.Pairwise lt := by
  unfold edges states
  rw [List.pairwise_flatMap]
  constructor
  · intro s _
    rw [List.pairwise_map]
    refine (pairwise_arrows a s).imp fun {r r'} hlt => ?_
    exact Edge.lt_iff.2 (.inr ⟨rfl, hlt⟩)
  · refine List.pairwise_lt_range.imp fun {s t} hst e he e' he' => ?_
    obtain ⟨r, -, rfl⟩ := List.mem_map.1 he
    obtain ⟨r', -, rfl⟩ := List.mem_map.1 he'
    exact Edge.lt_iff.2 (.inl hst)

theorem length_edges (a : Automaton) : a.edges.length = a.arrowCount := by
  have hrows : a.states.map (fun s => (a.arrows s).length) =
      a.nodes.toList.map fun n => n.arrows.size := by
    refine List.ext_getElem (by simp [states, size]) fun s hs hs' => ?_
    have hlt : s < a.nodes.size := by simpa using hs'
    simp [states, arrows, OrderedSet.size, hlt]
  unfold edges arrowCount
  rw [List.length_flatMap, ← Array.foldl_toList]
  simp only [List.length_map]
  rw [hrows, List.sum_eq_foldl, List.foldl_map]

/-! ## Adding edges -/

/-- Adds edges between members, one after the other. -/
def addTransitions (a : Automaton) (es : List Edge) : Except Misuse Automaton :=
  es.foldlM (fun a e => a.addTransition e.source e.label e.dest) a

theorem addTransitions_eq_applyAll (a : Automaton) (es : List Edge) :
    a.addTransitions es = Edit.applyAll a (es.map Edge.addition) := by
  rw [Edit.applyAll, List.foldlM_map]
  rfl

/-- What `b` has beyond `a` are edges, those in `es`. -/
structure Gains (a : Automaton) (es : List Edge) (b : Automaton) : Prop where
  size : b.size = a.size
  initial : b.initial = a.initial
  name : ∀ s, b.name s = a.name s
  origin? : ∀ s, b.origin? s = a.origin? s
  accepting : ∀ s, b.accepting s = a.accepting s
  mem_edges : ∀ e, e ∈ b.edges ↔ e ∈ a.edges ∨ e ∈ es

theorem gains_refl (a : Automaton) : a.Gains [] a :=
  ⟨rfl, rfl, fun _ => rfl, fun _ => rfl, fun _ => rfl, by simp⟩

theorem name_connect (a : Automaton) (s t : State) (l : Label) (u : State) :
    (a.connect s l t).name u = a.name u :=
  name_modifyNode (g := fun n => { n with arrows := n.arrows.insert ⟨l, t⟩ }) (fun _ => rfl) u

theorem origin?_connect (a : Automaton) (s t : State) (l : Label) (u : State) :
    (a.connect s l t).origin? u = a.origin? u := by
  unfold origin? connect modifyNode
  rw [Array.getElem?_modify]
  by_cases h : s = u
  · subst h
    cases a.nodes[s]? <;> simp
  · rw [if_neg h]

/-- One more call adds one more edge. -/
theorem Gains.connect (h : a.Gains es b) {e : Edge} (he : e.source < b.size) :
    a.Gains (es ++ [e]) (b.connect e.source e.label e.dest) := by
  refine ⟨?_, h.initial, fun s => ?_, fun s => ?_, fun s => ?_, fun e' => ?_⟩
  · rw [size_connect, h.size]
  · rw [name_connect, h.name]
  · rw [origin?_connect, h.origin?]
  · rw [accepting_connect, h.accepting]
  · have hnew : (e'.source = e.source ∧ (⟨e'.label, e'.dest⟩ : Arrow) = ⟨e.label, e.dest⟩) ↔ e' = e := by
      cases e
      cases e'
      simp
    rw [Automaton.mem_edges, mem_arrows_connect he, hnew, ← Automaton.mem_edges, h.mem_edges,
      List.mem_append, List.mem_singleton]
    grind

/-- Calls on members succeed and add their edges. -/
theorem Gains.exists_gains (h : a.Gains es b)
    (hmem : ∀ e ∈ es', e.source < a.size ∧ e.dest < a.size) :
    ∃ b', b.addTransitions es' = .ok b' ∧ a.Gains (es ++ es') b' := by
  induction es' generalizing es b with
  | nil => exact ⟨b, rfl, by rwa [List.append_nil]⟩
  | cons e es' ih =>
    obtain ⟨⟨hs, ht⟩, hmem⟩ := List.forall_mem_cons.1 hmem
    rw [← h.size] at hs ht
    obtain ⟨b', hb', hgains⟩ := ih (h.connect hs) hmem
    refine ⟨b', ?_, by rwa [List.append_assoc] at hgains⟩
    rw [addTransitions, List.foldlM_cons, addTransition, if_neg (not_not_intro hs),
      if_neg (not_not_intro ht), ok_bind]
    exact hb'

/-- The states and the set of the new edges determine what comes out. -/
theorem Gains.unique (h : a.Gains es b) (h' : a.Gains es' b') (hsame : ∀ e, e ∈ es ↔ e ∈ es') :
    b = b' := by
  refine eq_of_looks (h.size.trans h'.size.symm) (h.initial.trans h'.initial.symm)
    (fun s _ => (h.name s).trans (h'.name s).symm)
    (fun s _ => (h.origin? s).trans (h'.origin? s).symm)
    (fun s _ => (h.accepting s).trans (h'.accepting s).symm) ?_
  rintro s - ⟨l, t⟩
  have he : (⟨s, l, t⟩ : Edge) ∈ b.edges ↔ ⟨s, l, t⟩ ∈ b'.edges := by
    rw [h.mem_edges, h'.mem_edges, hsame]
  rwa [Automaton.mem_edges, Automaton.mem_edges] at he

end Automaton

/-! ## In place -/

namespace Slot

variable {slot slot' : Slot} {l : Label} {n k : Nat}

/-- The destinations label by label are the arrows in their order. -/
theorem toList_arrows (slot : Slot) : slot.arrows.toList =
    slot.transitions.entries.flatMap fun e => e.2.toList.map fun t => ⟨e.1, t⟩ := by
  apply OrderedSet.toList_ofList
  rw [List.pairwise_flatMap]
  constructor
  · intro e _
    rw [List.pairwise_map]
    refine e.2.ascending.imp fun {t t'} hlt => ?_
    exact Arrow.lt_iff.2 (.inr ⟨rfl, hlt⟩)
  · refine slot.transitions.ascending.imp fun {e e'} h r hr r' hr' => ?_
    obtain ⟨t, -, rfl⟩ := List.mem_map.1 hr
    obtain ⟨t', -, rfl⟩ := List.mem_map.1 hr'
    exact Arrow.lt_iff.2 (.inl h)

theorem Sound.get?_eq_some_iff (h : Sound n slot) {dests : StateSet} :
    slot.transitions.get? l = some dests ↔
      (∃ t, t ∈ dests) ∧ ∀ t, t ∈ dests ↔ (⟨l, t⟩ : Arrow) ∈ slot.arrows := by
  constructor
  · intro hl
    refine ⟨(h l dests hl).1, fun t => ?_⟩
    rw [← mem_getD_get?, hl, Option.getD_some]
  · rintro ⟨⟨t, ht⟩, hdests⟩
    obtain ⟨dests', hl, -⟩ := mem_arrows.1 ((hdests t).1 ht)
    have heq : dests = dests' := OrderedSet.ext fun u => by
      rw [hdests, ← mem_getD_get?, hl, Option.getD_some]
    rw [hl, heq]

/-- When each label has a destination the arrows tell the transitions. -/
theorem Sound.transitions_eq (h : Sound n slot) (h' : Sound k slot')
    (harrows : slot.arrows = slot'.arrows) : slot.transitions = slot'.transitions := by
  refine OrderedMap.ext fun l => Option.ext fun dests => ?_
  rw [h.get?_eq_some_iff, h'.get?_eq_some_iff, harrows]

end Slot

namespace Store

variable {st st' : Store} {es : List Edge}

/-- The edges that are kept, by their states, and the destinations of each label in their order. -/
def edges (st : Store) : List Edge :=
  (List.range st.slots.size).flatMap fun s =>
    match st.slots[s]? with
    | some slot => slot.transitions.entries.flatMap fun e => e.2.toList.map fun t => ⟨s, e.1, t⟩
    | none => []

/-- How many destinations the labels of all states have. -/
def transitionCount (st : Store) : Nat :=
  (st.slots.toList.flatMap fun slot => slot.transitions.entries.map Prod.snd).foldl
    (fun k dests => k + dests.size) 0

theorem arrows_automaton {s : State} {slot : Slot} (hs : st.slots[s]? = some slot) :
    st.automaton.arrows s = slot.arrows.toList := by
  unfold Automaton.arrows
  rw [getElem?_nodes_automaton, hs]
  rfl

theorem edges_automaton (st : Store) : st.automaton.edges = st.edges := by
  unfold Automaton.edges Automaton.states edges
  rw [size_automaton]
  refine List.flatMap_congr fun s hs => ?_
  have hget := Array.getElem?_eq_getElem (List.mem_range.1 hs)
  rw [hget, arrows_automaton hget, Slot.toList_arrows, List.map_flatMap]
  simp only [List.map_map]
  rfl

theorem length_edges (st : Store) : st.edges.length = st.transitionCount := by
  have hrows : (List.range st.slots.size).map (fun s => match st.slots[s]? with
      | some slot => (slot.transitions.entries.map fun e => e.2.size).sum
      | none => 0) =
      st.slots.toList.map fun slot => (slot.transitions.entries.map fun e => e.2.size).sum := by
    refine List.ext_getElem (by simp) fun s hs hs' => ?_
    have hlt : s < st.slots.size := by simpa using hs'
    simp [hlt]
  have hcount : st.transitionCount =
      (st.slots.toList.map fun slot => (slot.transitions.entries.map fun e => e.2.size).sum).sum := by
    unfold transitionCount
    rw [← List.foldl_map (f := OrderedSet.size) (g := (· + ·)), ← List.sum_eq_foldl,
      List.map_flatMap, List.flatMap_def, List.sum_flatten, List.map_map]
    simp only [List.map_map]
    rfl
  rw [hcount, ← hrows, edges, List.length_flatMap]
  congr 2
  funext s
  cases st.slots[s]? with
  | none => rfl
  | some slot => simp [OrderedSet.size, List.length_flatMap]

/-- One coherent store stands for an automaton. -/
theorem Coherent.ext (h : st.Coherent) (h' : st'.Coherent) (he : st.automaton = st'.automaton) :
    st = st' := by
  have hsize : st.slots.size = st'.slots.size := by
    rw [← size_automaton, ← size_automaton, he]
  have hnode : ∀ (s : State) (hs : s < st.slots.size) (hs' : s < st'.slots.size),
      st.node s st.slots[s] = st'.node s st'.slots[s] := by
    intro s hs hs'
    have hnodes := congrArg (fun a : Automaton => a.nodes[s]?) he
    simpa [getElem?_nodes_automaton, hs, hs'] using hnodes
  have hslots : st.slots = st'.slots := by
    refine Array.ext hsize fun s hs hs' => ?_
    have hlooks := hnode s hs hs'
    have htransitions := (h.sound _ (Array.getElem_mem hs)).transitions_eq
      (h'.sound _ (Array.getElem_mem hs')) (congrArg Node.arrows hlooks)
    have hname := congrArg Node.name hlooks
    have horigin := congrArg Node.origin hlooks
    generalize st.slots[s] = slot at *
    generalize st'.slots[s] = slot' at *
    cases slot
    cases slot'
    cases htransitions
    cases hname
    cases horigin
    rfl
  have hflags : st.flags = st'.flags := by
    refine Array.ext (by rw [h.flags, h'.flags, hsize]) fun s hs hs' => ?_
    have haccepting := congrArg Node.accepting (hnode s (h.flags ▸ hs) (h'.flags ▸ hs'))
    simpa [node, hs, hs'] using haccepting
  have hinitial : st.initial = st'.initial := congrArg Automaton.initial he
  cases st
  cases st'
  cases hslots
  cases hflags
  cases hinitial
  rfl

/-- Adds edges between members, one after the other. -/
def addTransitions (es : List Edge) : EStateM Misuse Store Unit :=
  forM es fun e => (Edit.addTransition e.source e.label e.dest).write

theorem addTransitions_eq_writeAll (es : List Edge) :
    addTransitions es = Edit.writeAll (es.map Edge.addition) := by
  rw [Edit.writeAll, List.forM_map]
  rfl

/-- Adding edges in place does what it does to the automaton. -/
theorem Coherent.exists_addTransitions (h : st.Coherent) {b : Automaton}
    (hb : st.automaton.addTransitions es = .ok b) :
    ∃ st', (addTransitions es).run st = .ok () st' ∧ st'.Coherent ∧ st'.automaton = b := by
  rw [Automaton.addTransitions_eq_applyAll] at hb
  rw [addTransitions_eq_writeAll]
  exact h.exists_writeAll hb

end Store

namespace Automaton

variable {a : Automaton} {es es' : List Edge}

/-- Two lists with the same edges between members make one automaton, and one store where it is kept.
Its edges are the old ones and those of the list, each once and in ascending order, and their number is
the number of its arrows. -/
theorem addTransitions_eq_of_same_edges (hmem : ∀ e ∈ es, e.source < a.size ∧ e.dest < a.size)
    (hsame : ∀ e, e ∈ es ↔ e ∈ es') :
    ∃ b, a.addTransitions es = .ok b ∧ a.addTransitions es' = .ok b ∧
      (∀ e, e ∈ b.edges ↔ e ∈ a.edges ∨ e ∈ es) ∧ b.edges.Pairwise lt ∧
      b.arrowCount = b.edges.length ∧
      ∀ st : Store, st.Coherent → st.automaton = a →
        ∃ st', (Store.addTransitions es).run st = .ok () st' ∧
          (Store.addTransitions es').run st = .ok () st' ∧ st'.automaton = b ∧
          st'.edges = b.edges ∧ st'.transitionCount = b.arrowCount := by
  obtain ⟨b, hb, hgains⟩ := (gains_refl a).exists_gains hmem
  obtain ⟨b', hb', hgains'⟩ := (gains_refl a).exists_gains fun e he => hmem e ((hsame e).2 he)
  cases hgains.unique hgains' hsame
  refine ⟨b, hb, hb', hgains.mem_edges, pairwise_edges b, (length_edges b).symm, ?_⟩
  rintro st hst rfl
  obtain ⟨st', hrun, hcoherent, heq⟩ := hst.exists_addTransitions hb
  obtain ⟨st'', hrun', hcoherent', heq'⟩ := hst.exists_addTransitions hb'
  cases hcoherent.ext hcoherent' (heq.trans heq'.symm)
  refine ⟨st', hrun, hrun', heq, ?_, ?_⟩
  · rw [← Store.edges_automaton, heq]
  · rw [← Store.length_edges, ← Store.edges_automaton, heq, length_edges]

/-- A range and an empty move, each added twice, and an edge that `deadBranch` has. -/
def crossing : List Edge :=
  [⟨1, .range 'a' 'z', 0⟩, ⟨0, .epsilon, 3⟩, ⟨1, .symbol 'b', 1⟩, ⟨1, .range 'a' 'z', 0⟩,
    ⟨0, .epsilon, 3⟩]

/-- The same edges, each once and in another order. -/
def crossingOnce : List Edge := [⟨0, .epsilon, 3⟩, ⟨1, .range 'a' 'z', 0⟩, ⟨1, .symbol 'b', 1⟩]

theorem addTransitions_eq_crossing :
    (∀ e ∈ crossing, e.source < deadBranch.size ∧ e.dest < deadBranch.size) ∧
    (∀ e, e ∈ crossing ↔ e ∈ crossingOnce) ∧
    ∃ b, deadBranch.addTransitions crossing = .ok b ∧ deadBranch.addTransitions crossingOnce = .ok b ∧
      b.edges =
        [⟨0, .epsilon, 2⟩, ⟨0, .epsilon, 3⟩, ⟨0, .symbol 'a', 1⟩, ⟨0, .symbol 'a', 2⟩,
          ⟨1, .symbol 'b', 1⟩, ⟨1, .range 'a' 'z', 0⟩, ⟨2, .epsilon, 0⟩, ⟨2, .range 'z' 'a', 1⟩,
          ⟨3, .symbol 'a', 0⟩] ∧
      b.arrowCount = 9 ∧
      ∃ st', (Store.addTransitions crossing).run (.ofAutomaton deadBranch) = .ok () st' ∧
        st'.edges = b.edges := by
  have hmem : ∀ e ∈ crossing, e.source < deadBranch.size ∧ e.dest < deadBranch.size := by decide
  have hsame : ∀ e, e ∈ crossing ↔ e ∈ crossingOnce := by
    intro e
    simp only [crossing, crossingOnce, List.mem_cons, List.not_mem_nil, or_false]
    grind
  have hw : deadBranch.WellFormed := by decide
  obtain ⟨b, hb, hb', hedges, hpairwise, hcount, hstore⟩ := addTransitions_eq_of_same_edges hmem hsame
  obtain ⟨st', hrun, -, -, hst', -⟩ := hstore (.ofAutomaton deadBranch)
    (Store.coherent_ofAutomaton hw) (Store.automaton_ofAutomaton deadBranch)
  have hold : deadBranch.edges =
      [⟨0, .epsilon, 2⟩, ⟨0, .symbol 'a', 1⟩, ⟨0, .symbol 'a', 2⟩, ⟨1, .symbol 'b', 1⟩,
        ⟨2, .epsilon, 0⟩, ⟨2, .range 'z' 'a', 1⟩, ⟨3, .symbol 'a', 0⟩] := by decide
  have hlist : b.edges =
      [⟨0, .epsilon, 2⟩, ⟨0, .epsilon, 3⟩, ⟨0, .symbol 'a', 1⟩, ⟨0, .symbol 'a', 2⟩,
        ⟨1, .symbol 'b', 1⟩, ⟨1, .range 'a' 'z', 0⟩, ⟨2, .epsilon, 0⟩, ⟨2, .range 'z' 'a', 1⟩,
        ⟨3, .symbol 'a', 0⟩] := by
    refine OrderedSet.eq_of_mem_iff hpairwise (by decide) fun e => ?_
    rw [hedges, hold, crossing]
    simp only [List.mem_cons, List.not_mem_nil, or_false]
    grind
  exact ⟨hmem, hsame, b, hb, hb', hlist, hcount.trans (congrArg List.length hlist), st', hrun, hst'⟩

end Automaton

end PatternAutomata
