import PatternAutomata.Proofs.EdgeSet

/-!
# Every store is written edit by edit

An automaton that was derived from another is put where it is kept in one piece
(`Store.ofAutomaton`).  Its edits write the same store into the empty one: each state with its flag,
then the edges, and the initial state at the end.

    a.WellFormed → Edit.applyAll empty a.edits = .ok a                                 (applyAll_edits)
    a.WellFormed → (Edit.writeAll a.edits).run {} = .ok () (ofAutomaton a)             (writeAll_edits)

So the coherent stores are those that edits write, no more and no less (`coherent_iff_written`), and
whatever is kept after commands is one of them (`written_run`).
-/

namespace PatternAutomata

theorem Edit.applyAll_append (a : Automaton) (es es' : List Edit) :
    applyAll a (es ++ es') = applyAll a es >>= fun b => applyAll b es' := List.foldlM_append

namespace Node

/-- A node without its arrows. -/
def bare (n : Node) : Node := { n with arrows := .empty }

/-- The edits that add a node, without its arrows, as the state `s`. -/
def edits (n : Node) (s : State) : List Edit :=
  [.addState (some n.name) n.origin, .setAccepting s n.accepting]

end Node

namespace Automaton

variable {a b : Automaton}

/-- The edits that make an automaton from the empty one. -/
def edits (a : Automaton) : List Edit :=
  a.nodes.toList.zipIdx.flatMap (fun e => e.1.edits e.2) ++ a.edges.map Edge.addition ++
    a.initial.toList.map Edit.setInitial

/-! ## States -/

theorem applyAll_node (a : Automaton) (n : Node) :
    Edit.applyAll a (n.edits a.size) = .ok (a.addNode n.bare) := by
  show (a.addNode { name := n.name, origin := n.origin }).setAccepting a.size n.accepting >>= _ = _
  rw [setAccepting, if_pos (lt_size_addNode ..), modifyNode_addNode]
  rfl

/-- Nodes are added behind those that there are. -/
theorem applyAll_nodes (a : Automaton) (l : List Node) :
    Edit.applyAll a ((l.zipIdx a.size).flatMap fun e => e.1.edits e.2) =
      .ok { a with nodes := a.nodes ++ (l.map Node.bare).toArray } := by
  induction l generalizing a with
  | nil =>
    show Except.ok a = .ok { a with nodes := a.nodes ++ #[] }
    rw [Array.append_empty]
  | cons n l ih =>
    -- The numbers of the rest go on behind the node that was added.
    rw [List.zipIdx_cons, List.flatMap_cons, Edit.applyAll_append, applyAll_node, ok_bind,
      ← size_addNode a n.bare, ih]
    simp [addNode]

/-- An automaton with its states alone. -/
def bare (a : Automaton) : Automaton := { nodes := a.nodes.map Node.bare }

theorem applyAll_empty_nodes (a : Automaton) :
    Edit.applyAll empty (a.nodes.toList.zipIdx.flatMap fun e => e.1.edits e.2) = .ok a.bare := by
  have hnodes : (a.nodes.toList.map Node.bare).toArray = a.nodes.map Node.bare := by
    rw [← Array.toList_map, Array.toArray_toList]
  have h := applyAll_nodes empty a.nodes.toList
  rwa [hnodes, show empty.nodes = #[] from rfl, Array.empty_append] at h

@[simp] theorem size_bare (a : Automaton) : a.bare.size = a.size := Array.size_map ..

theorem getElem?_nodes_bare (a : Automaton) (s : State) :
    a.bare.nodes[s]? = a.nodes[s]?.map Node.bare := Array.getElem?_map ..

theorem name_bare (a : Automaton) (s : State) : a.bare.name s = a.name s := by
  unfold name
  rw [getElem?_nodes_bare]
  cases a.nodes[s]? <;> rfl

theorem origin?_bare (a : Automaton) (s : State) : a.bare.origin? s = a.origin? s := by
  unfold origin?
  rw [getElem?_nodes_bare]
  cases a.nodes[s]? <;> rfl

theorem accepting_bare (a : Automaton) (s : State) : a.bare.accepting s = a.accepting s := by
  unfold accepting
  rw [getElem?_nodes_bare]
  cases a.nodes[s]? <;> rfl

theorem not_mem_edges_bare (a : Automaton) (e : Edge) : e ∉ a.bare.edges := by
  rw [mem_edges]
  unfold arrows
  rw [getElem?_nodes_bare]
  cases a.nodes[e.source]? with
  | none => exact List.not_mem_nil
  | some n => exact OrderedSet.not_mem_empty

/-! ## Edges and the initial state -/

/-- With its edges a bare automaton has all but the initial state. -/
theorem Gains.eq_of_bare (h : a.bare.Gains a.edges b) : { b with initial := a.initial } = a := by
  refine eq_of_looks (h.size.trans a.size_bare) rfl (fun s _ => (h.name s).trans (a.name_bare s))
    (fun s _ => (h.origin? s).trans (a.origin?_bare s))
    (fun s _ => (h.accepting s).trans (a.accepting_bare s)) ?_
  rintro s - ⟨l, t⟩
  have he : (⟨s, l, t⟩ : Edge) ∈ b.edges ↔ ⟨s, l, t⟩ ∈ a.edges :=
    (h.mem_edges _).trans (or_iff_right (a.not_mem_edges_bare _))
  rwa [Automaton.mem_edges, Automaton.mem_edges] at he

theorem applyAll_initial (h : ∀ s, a.initial = some s → s < b.size) (hb : b.initial = none) :
    Edit.applyAll b (a.initial.toList.map Edit.setInitial) = .ok { b with initial := a.initial } := by
  cases hs : a.initial with
  | none =>
    cases b
    cases hb
    rfl
  | some s =>
    show setInitial b s >>= _ = _
    rw [setInitial, if_pos (h s hs)]
    rfl

/-- Its edits make an automaton. -/
theorem applyAll_edits (hw : a.WellFormed) : Edit.applyAll empty a.edits = .ok a := by
  have hmem : ∀ e ∈ a.edges, e.source < a.bare.size ∧ e.dest < a.bare.size := by
    intro e he
    rw [size_bare]
    exact ⟨lt_size_of_mem_arrows (mem_edges.1 he), hw.dest_lt _ _ (mem_edges.1 he)⟩
  obtain ⟨b, hb, hgains⟩ := (gains_refl a.bare).exists_gains hmem
  have hinitial : ∀ s, a.initial = some s → s < b.size := fun s hs => by
    rw [hgains.size, size_bare]
    exact hw.initial_lt s hs
  rw [edits, Edit.applyAll_append, Edit.applyAll_append, applyAll_empty_nodes, ok_bind,
    ← addTransitions_eq_applyAll, hb, ok_bind, applyAll_initial hinitial hgains.initial]
  exact congrArg Except.ok hgains.eq_of_bare

end Automaton

/-! ## In place -/

namespace Store

variable {a : Automaton} {st : Store}

/-- Putting an automaton where it is kept is to write its edits into the empty store. -/
theorem writeAll_edits (hw : a.WellFormed) : (Edit.writeAll a.edits).run {} = .ok () (ofAutomaton a) := by
  obtain ⟨st, hrun, h, heq⟩ := coherent_empty.exists_writeAll (Automaton.applyAll_edits hw)
  rwa [h.ext (coherent_ofAutomaton hw) (heq.trans (automaton_ofAutomaton a).symm)] at hrun

/-- A store is coherent when edits write it into the empty one. -/
theorem coherent_iff_written : st.Coherent ↔ ∃ es, (Edit.writeAll es).run {} = .ok () st := by
  constructor
  · intro h
    have hst : ofAutomaton st.automaton = st :=
      (coherent_ofAutomaton h.wellFormed).ext h (automaton_ofAutomaton _)
    refine ⟨st.automaton.edits, ?_⟩
    rw [writeAll_edits h.wellFormed, hst]
  · rintro ⟨es, hrun⟩
    rcases Edit.writeAll_spec es coherent_empty with ⟨m, st', herror, -⟩ | ⟨st', hok, h, -⟩
    · cases hrun.symm.trans herror
    · cases hrun.symm.trans hok
      exact h

/-- Whatever the commands are, edits write each of the automata that are kept. -/
theorem written_run (cs : List Command) :
    ∀ st ∈ run cs, ∃ es, (Edit.writeAll es).run {} = .ok () st := fun st hst =>
  coherent_iff_written.1 ((coherent_foldl (List.forall_mem_singleton.2 coherent_empty) cs).1 st hst)

end Store

end PatternAutomata
