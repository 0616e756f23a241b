import PatternAutomata.Proofs.Members
import PatternAutomata.Store

/-!
# What every command keeps

A store is *coherent* when it has one flag a state, each label of a state has a destination, and
destinations and the initial state are members.  Each edit keeps this and does to the store what it
does to the automaton that the store stands for; an edit that is refused has written nothing
(`Edit.write_spec`).  Each command follows (`Command.execute_spec`), and then all commands, one after
the other:

    st ∈ run cs → st.Coherent                                                    (coherent_run)
-/

namespace PatternAutomata

/-! ## Slots -/

namespace Slot

variable {slot : Slot} {l l' : Label} {t t' : State} {n k : Nat}

theorem mem_arrows : (⟨l, t⟩ : Arrow) ∈ slot.arrows ↔
    ∃ dests, slot.transitions.get? l = some dests ∧ t ∈ dests := by
  simp only [OrderedMap.get?_eq_some_iff]
  unfold arrows
  rw [OrderedSet.mem_ofList, List.mem_flatMap]
  constructor
  · rintro ⟨⟨l', dests⟩, he, h⟩
    obtain ⟨t', ht, e⟩ := List.mem_map.1 h
    cases e
    exact ⟨dests, he, ht⟩
  · rintro ⟨dests, he, ht⟩
    exact ⟨(l, dests), he, List.mem_map.2 ⟨t, ht, rfl⟩⟩

theorem mem_getD_get? :
    t ∈ (slot.transitions.get? l).getD OrderedSet.empty ↔ (⟨l, t⟩ : Arrow) ∈ slot.arrows := by
  rw [mem_arrows]
  cases slot.transitions.get? l with
  | none => simp
  | some dests => simp

theorem get?_link : (slot.link l t).transitions.get? l' =
    if l' = l then some (((slot.transitions.get? l).getD OrderedSet.empty).insert t)
    else slot.transitions.get? l' :=
  OrderedMap.get?_insert ..

theorem arrows_link : (slot.link l t).arrows = slot.arrows.insert ⟨l, t⟩ := by
  apply OrderedSet.ext
  rintro ⟨l', t'⟩
  rw [mem_arrows, get?_link, OrderedSet.mem_insert, Arrow.mk.injEq]
  by_cases h : l' = l
  · subst h
    rw [if_pos rfl, ← mem_getD_get?]
    simp
  · rw [if_neg h, ← mem_arrows]
    simp [h]

/-- Every label has a destination, and its destinations are below `n`. -/
def Sound (n : Nat) (slot : Slot) : Prop :=
  ∀ l dests, slot.transitions.get? l = some dests → (∃ t, t ∈ dests) ∧ ∀ t ∈ dests, t < n

theorem sound_fresh (n : Nat) (name : String) (origin : Option StateSet) :
    Sound n { name := name, origin := origin } := by
  intro l dests h
  cases h

theorem Sound.mono (h : Sound n slot) (hle : n ≤ k) : Sound k slot := by
  intro l dests hl
  obtain ⟨hne, hlt⟩ := h l dests hl
  exact ⟨hne, fun t ht => Nat.lt_of_lt_of_le (hlt t ht) hle⟩

theorem Sound.link (h : Sound n slot) (ht : t < n) : Sound n (slot.link l t) := by
  intro l' dests hl
  rw [get?_link] at hl
  by_cases hll : l' = l
  · rw [if_pos hll] at hl
    cases hl
    refine ⟨⟨t, OrderedSet.mem_insert.2 (.inl rfl)⟩, ?_⟩
    intro u hu
    rcases OrderedSet.mem_insert.1 hu with rfl | hu
    · exact ht
    · obtain ⟨dests, hget, hu⟩ := mem_arrows.1 (mem_getD_get?.1 hu)
      exact (h l dests hget).2 u hu
  · rw [if_neg hll] at hl
    exact h l' dests hl

theorem get?_ofNode {nd : Node} {dests : StateSet} :
    (ofNode nd).transitions.get? l = some dests ↔
      ∃ g ∈ Automaton.groupByLabel nd.arrows.toList, g.1 = l ∧ OrderedSet.ofList g.2 = dests := by
  have hnodup : (((Automaton.groupByLabel nd.arrows.toList).map fun g =>
      (g.1, (OrderedSet.ofList g.2 : StateSet))).map Prod.fst).Nodup := by
    rw [List.map_map]
    exact (List.pairwise_map.2 (Automaton.pairwise_groupByLabel nd.arrows.ascending)).imp
      StrictTotal.ne_of_lt
  unfold ofNode
  rw [OrderedMap.get?_eq_some_iff, OrderedMap.mem_entries_ofList hnodup, List.mem_map]
  simp only [Prod.mk.injEq]

theorem arrows_ofNode (nd : Node) : (ofNode nd).arrows = nd.arrows := by
  apply OrderedSet.ext
  rintro ⟨l, t⟩
  rw [mem_arrows, ← OrderedSet.mem_toList, ← Automaton.mem_groupByLabel]
  simp only [get?_ofNode]
  constructor
  · rintro ⟨_, ⟨g, hg, rfl, rfl⟩, ht⟩
    exact ⟨g.2, hg, OrderedSet.mem_ofList.1 ht⟩
  · rintro ⟨dests, hg, ht⟩
    exact ⟨_, ⟨_, hg, rfl, rfl⟩, OrderedSet.mem_ofList.2 ht⟩

theorem sound_ofNode {nd : Node} (h : ∀ r ∈ nd.arrows, r.dest < n) : Sound n (ofNode nd) := by
  intro l dests hl
  obtain ⟨g, hg, rfl, rfl⟩ := get?_ofNode.1 hl
  constructor
  · obtain ⟨t, ht⟩ := List.exists_mem_of_ne_nil _ (Automaton.ne_nil_of_mem_groupByLabel hg)
    exact ⟨t, OrderedSet.mem_ofList.2 ht⟩
  · intro t ht
    have hr := Automaton.mem_groupByLabel.1 ⟨g.2, hg, OrderedSet.mem_ofList.1 ht⟩
    exact h _ hr

end Slot

/-! ## Stores -/

namespace Store

variable {st : Store} {s t : State} {l : Label}

/-- What a store keeps from one command to the next. -/
structure Coherent (st : Store) : Prop where
  /-- There is one flag a state. -/
  flags : st.flags.size = st.slots.size
  /-- Every label has a destination, and destinations are members. -/
  sound : ∀ slot ∈ st.slots, slot.Sound st.slots.size
  /-- The initial state is a member. -/
  initial_lt : ∀ s, st.initial = some s → s < st.slots.size

@[simp] theorem size_automaton (st : Store) : st.automaton.size = st.slots.size := by
  simp [automaton, Automaton.size]

theorem getElem?_nodes_automaton (st : Store) (s : State) :
    st.automaton.nodes[s]? = st.slots[s]?.map (st.node s) := by
  simp [automaton]

theorem automaton_eq {a : Automaton} (hi : st.initial = a.initial)
    (hn : ∀ s : State, st.slots[s]?.map (st.node s) = a.nodes[s]?) : st.automaton = a := by
  have hnodes : st.automaton.nodes = a.nodes := by
    apply Array.ext_getElem?
    intro s
    rw [getElem?_nodes_automaton, hn]
  cases a
  cases hnodes
  cases hi
  rfl

theorem automaton_ofAutomaton (a : Automaton) : (ofAutomaton a).automaton = a := by
  apply automaton_eq
  · rfl
  · intro s
    unfold ofAutomaton
    rw [Array.getElem?_map, Option.map_map]
    cases hs : a.nodes[s]? with
    | none => rfl
    | some nd =>
      rw [Option.map_some, Option.some.injEq, Function.comp_apply]
      unfold node
      rw [Slot.arrows_ofNode, Array.getElem?_map, hs]
      rfl

theorem Coherent.wellFormed (h : st.Coherent) : st.automaton.WellFormed := by
  constructor
  · rintro s ⟨l, t⟩ hr
    unfold Automaton.arrows at hr
    rw [getElem?_nodes_automaton] at hr
    rw [size_automaton]
    cases hs : st.slots[s]? with
    | none =>
      rw [hs] at hr
      cases hr
    | some slot =>
      rw [hs] at hr
      obtain ⟨dests, hget, ht⟩ := Slot.mem_arrows.1 (OrderedSet.mem_toList.1 hr)
      exact (h.sound slot (Array.mem_of_getElem? hs) l dests hget).2 t ht
  · intro s hs
    rw [size_automaton]
    exact h.initial_lt s hs

theorem coherent_ofAutomaton {a : Automaton} (hw : a.WellFormed) : (ofAutomaton a).Coherent := by
  have hsize : (ofAutomaton a).slots.size = a.size := Array.size_map ..
  constructor
  · rw [hsize]
    exact Array.size_map ..
  · intro slot hslot
    rw [hsize]
    obtain ⟨nd, hnd, rfl⟩ := Array.mem_map.1 hslot
    obtain ⟨s, hs⟩ := Array.mem_iff_getElem?.1 hnd
    apply Slot.sound_ofNode
    intro r hr
    apply hw.dest_lt s
    unfold Automaton.arrows
    rw [hs]
    exact hr
  · intro s hs
    rw [hsize]
    exact hw.initial_lt s hs

/-! ## Edits -/

theorem run_require (s : State) (refusal : Misuse) (st : Store) :
    (require s refusal).run st = if s < st.slots.size then .ok () st else .error refusal st := by
  unfold require
  rw [EStateM.run_bind, EStateM.run_get]
  dsimp only
  by_cases h : s < st.slots.size
  · rw [if_pos h, if_pos h, EStateM.run_pure]
  · rw [if_neg h, if_neg h, EStateM.run_throw]

variable {name : String} {origin : Option StateSet} {flag : Bool}

theorem Coherent.push (h : st.Coherent) (name : String) (origin : Option StateSet) :
    Coherent { st with
      slots := st.slots.push { name := name, origin := origin }, flags := st.flags.push false } := by
  have hle : st.slots.size ≤ (st.slots.push { name := name, origin := origin }).size := by
    rw [Array.size_push]
    exact Nat.le_succ _
  constructor
  · show (st.flags.push false).size = (st.slots.push _).size
    rw [Array.size_push, Array.size_push, h.flags]
  · intro slot hslot
    rcases Array.mem_push.1 hslot with hslot | rfl
    · exact (h.sound slot hslot).mono hle
    · exact Slot.sound_fresh _ name origin
  · intro s hs
    exact Nat.lt_of_lt_of_le (h.initial_lt s hs) hle

theorem Coherent.automaton_push (h : st.Coherent) (name : String) (origin : Option StateSet) :
    automaton { st with
      slots := st.slots.push { name := name, origin := origin }, flags := st.flags.push false } =
    st.automaton.addNode { name := name, origin := origin } := by
  apply automaton_eq
  · rfl
  · intro s
    have hsize : st.automaton.nodes.size = st.slots.size := st.size_automaton
    unfold Automaton.addNode
    rw [Array.getElem?_push, Array.getElem?_push, getElem?_nodes_automaton, hsize]
    by_cases hs : s = st.slots.size
    · rw [if_pos hs, if_pos hs, Option.map_some]
      unfold node
      rw [Array.getElem?_push, h.flags, if_pos hs]
      rfl
    · rw [if_neg hs, if_neg hs]
      unfold node
      rw [Array.getElem?_push, h.flags, if_neg hs]

theorem Coherent.modify (h : st.Coherent) (ht : t < st.slots.size) :
    Coherent { st with slots := st.slots.modify s (Slot.link l t) } := by
  have hsize : (st.slots.modify s (Slot.link l t)).size = st.slots.size := Array.size_modify ..
  constructor
  · rw [hsize]
    exact h.flags
  · intro slot hslot
    rw [hsize]
    obtain ⟨u, hu⟩ := Array.mem_iff_getElem?.1 hslot
    rw [Array.getElem?_modify] at hu
    by_cases hus : s = u
    · rw [if_pos hus] at hu
      obtain ⟨slot', hslot', rfl⟩ := Option.map_eq_some_iff.1 hu
      exact (h.sound slot' (Array.mem_of_getElem? hslot')).link ht
    · rw [if_neg hus] at hu
      exact h.sound slot (Array.mem_of_getElem? hu)
  · intro u hu
    rw [hsize]
    exact h.initial_lt u hu

theorem automaton_modify :
    automaton { st with slots := st.slots.modify s (Slot.link l t) } = st.automaton.connect s l t := by
  apply automaton_eq
  · rfl
  · intro u
    unfold Automaton.connect Automaton.modifyNode
    rw [Array.getElem?_modify, Array.getElem?_modify, getElem?_nodes_automaton]
    by_cases hus : s = u
    · rw [if_pos hus, if_pos hus, Option.map_map, Option.map_map]
      congr 1
      funext slot
      show node _ _ _ = _
      unfold node
      rw [Slot.arrows_link]
      rfl
    · rw [if_neg hus, if_neg hus]
      rfl

theorem Coherent.automaton_setIfInBounds (h : st.Coherent) (hs : s < st.slots.size) (flag : Bool) :
    automaton { st with flags := st.flags.setIfInBounds s flag } =
      st.automaton.modifyNode s fun n => { n with accepting := flag } := by
  apply automaton_eq
  · rfl
  · intro u
    unfold Automaton.modifyNode
    rw [Array.getElem?_modify, getElem?_nodes_automaton]
    by_cases hus : s = u
    · rw [if_pos hus, Option.map_map]
      congr 1
      funext slot
      show node _ _ _ = _
      unfold node
      rw [Array.getElem?_setIfInBounds, if_pos hus, h.flags, if_pos hs]
      rfl
    · rw [if_neg hus]
      congr 1
      funext slot
      unfold node
      rw [Array.getElem?_setIfInBounds, if_neg hus]

theorem Coherent.setIfInBounds (h : st.Coherent) (s : State) (flag : Bool) :
    Coherent { st with flags := st.flags.setIfInBounds s flag } := by
  refine ⟨?_, h.sound, h.initial_lt⟩
  show (st.flags.setIfInBounds s flag).size = st.slots.size
  rw [Array.size_setIfInBounds, h.flags]

theorem Coherent.setInitial (h : st.Coherent) (hs : s < st.slots.size) :
    Coherent { st with initial := some s } := by
  refine ⟨h.flags, h.sound, ?_⟩
  rintro t ⟨⟩
  exact hs

theorem automaton_setInitial :
    automaton { st with initial := some s } = { st.automaton with initial := some s } := rfl

end Store

open Store

/-- An edit is refused and has written nothing, or keeps a store coherent and does to it what it does to
its automaton. -/
theorem Edit.write_spec (e : Edit) {st : Store} (h : st.Coherent) :
    (∃ m, e.write.run st = .error m st ∧ e.apply st.automaton = .error m) ∨
    ∃ st', e.write.run st = .ok () st' ∧ st'.Coherent ∧ e.apply st.automaton = .ok st'.automaton := by
  have hsize := st.size_automaton
  cases e with
  | addState name origin =>
    refine .inr ⟨_, rfl, h.push _ origin, ?_⟩
    rw [h.automaton_push]
    unfold Edit.apply
    rw [hsize]
  | addTransition source label dest =>
    simp only [Edit.write, Edit.apply, Automaton.addTransition, EStateM.run_bind, run_require, hsize]
    by_cases hs : source < st.slots.size
    · rw [if_pos hs, if_neg (not_not.2 hs)]
      dsimp only
      by_cases ht : dest < st.slots.size
      · rw [if_pos ht, if_neg (not_not.2 ht), ← automaton_modify]
        exact .inr ⟨_, rfl, h.modify ht, rfl⟩
      · rw [if_neg ht, if_pos ht]
        exact .inl ⟨_, rfl, rfl⟩
    · rw [if_neg hs, if_pos hs]
      exact .inl ⟨_, rfl, rfl⟩
  | setAccepting s flag =>
    simp only [Edit.write, Edit.apply, Automaton.setAccepting, EStateM.run_bind, run_require, hsize]
    by_cases hs : s < st.slots.size
    · rw [if_pos hs, if_pos hs, ← h.automaton_setIfInBounds hs]
      exact .inr ⟨_, rfl, h.setIfInBounds s flag, rfl⟩
    · rw [if_neg hs, if_neg hs]
      exact .inl ⟨_, rfl, rfl⟩
  | setInitial s =>
    simp only [Edit.write, Edit.apply, Automaton.setInitial, EStateM.run_bind, run_require, hsize]
    by_cases hs : s < st.slots.size
    · rw [if_pos hs, if_pos hs, ← automaton_setInitial]
      exact .inr ⟨_, rfl, h.setInitial hs, rfl⟩
    · rw [if_neg hs, if_neg hs]
      exact .inl ⟨_, rfl, rfl⟩

/-- Edits one after the other, until one of them is refused. -/
def Edit.writeAll (es : List Edit) : EStateM Misuse Store Unit := forM es write

/-- The automaton after edits, unless one of them is refused. -/
def Edit.applyAll (a : Automaton) (es : List Edit) : Except Misuse Automaton := es.foldlM apply a

/-- Edits in a row keep a store coherent as far as they go, and do to it what they do to its automaton. -/
theorem Edit.writeAll_spec (es : List Edit) {st : Store} (h : st.Coherent) :
    (∃ m st', (writeAll es).run st = .error m st' ∧ st'.Coherent ∧
      applyAll st.automaton es = .error m) ∨
    ∃ st', (writeAll es).run st = .ok () st' ∧ st'.Coherent ∧
      applyAll st.automaton es = .ok st'.automaton := by
  induction es generalizing st with
  | nil => exact .inr ⟨st, rfl, h, rfl⟩
  | cons e es ih =>
    unfold writeAll applyAll
    rw [List.forM_cons, EStateM.run_bind, List.foldlM_cons]
    rcases e.write_spec h with ⟨m, hwrite, happly⟩ | ⟨st₁, hwrite, h₁, happly⟩
    · rw [hwrite, happly]
      exact .inl ⟨m, st, rfl, h, rfl⟩
    · rw [hwrite, happly]
      exact ih h₁

theorem Store.Coherent.exists_writeAll {es : List Edit} {st : Store} {b : Automaton} (h : st.Coherent)
    (hb : Edit.applyAll st.automaton es = .ok b) :
    ∃ st', (Edit.writeAll es).run st = .ok () st' ∧ st'.Coherent ∧ st'.automaton = b := by
  rcases Edit.writeAll_spec es h with ⟨m, -, -, -, happly⟩ | ⟨st', hrun, h', happly⟩
  · cases hb.symm.trans happly
  · exact ⟨st', hrun, h', Except.ok.inj (happly.symm.trans hb)⟩

/-! ## Commands -/

/-- A command fails and has changed nothing, or keeps all stores coherent and does to them what it does
to their automata. -/
theorem Command.execute_spec (c : Command) {stores : List Store} (h : ∀ st ∈ stores, st.Coherent) :
    (∃ f, c.execute.run stores = .error f stores ∧
      Session.perform (stores.map automaton) c = .error f) ∨
    ∃ stores', c.execute.run stores = .ok () stores' ∧ (∀ st ∈ stores', st.Coherent) ∧
      Session.perform (stores.map automaton) c = .ok (stores'.map automaton) := by
  cases c with
  | edit place e =>
    simp only [execute, Session.perform, EStateM.run_bind, EStateM.run_get, List.getElem?_map]
    cases hst : stores[place]? with
    | none => exact .inr ⟨stores, rfl, h, rfl⟩
    | some st =>
      rw [Option.map_some]
      dsimp only
      rcases e.write_spec (h st (List.mem_of_getElem? hst)) with
        ⟨m, hwrite, happly⟩ | ⟨st', hwrite, hc, happly⟩
      · -- The automaton is written back as it was.
        have hset : stores.set place st = stores := by
          obtain ⟨hlt, rfl⟩ := List.getElem?_eq_some_iff.1 hst
          exact List.set_getElem_self hlt
        rw [hwrite, happly]
        left
        refine ⟨.misuse m, ?_, rfl⟩
        show EStateM.Result.error _ (stores.set place st) = _
        rw [hset]
      · rw [hwrite, happly]
        refine .inr ⟨stores.set place st', rfl, ?_, ?_⟩
        · intro u hu
          rcases List.mem_or_eq_of_mem_set hu with hu | rfl
          · exact h u hu
          · exact hc
        · rw [List.map_set]
          rfl
  | derive place d =>
    simp only [execute, Session.perform, EStateM.run_bind, EStateM.run_get, List.getElem?_map]
    cases hst : stores[place]? with
    | none => exact .inr ⟨stores, rfl, h, rfl⟩
    | some st =>
      have hw := (h st (List.mem_of_getElem? hst)).wellFormed
      rw [Option.map_some]
      dsimp only
      cases hb : d.apply st.automaton with
      | error f => exact .inl ⟨f, rfl, rfl⟩
      | ok b =>
        refine .inr ⟨stores ++ [ofAutomaton b], rfl, ?_, ?_⟩
        · intro u hu
          rcases List.mem_append.1 hu with hu | hu
          · exact h u hu
          · rw [List.mem_singleton.1 hu]
            exact coherent_ofAutomaton (d.wellFormed hw hb)
        · rw [List.map_append, List.map_singleton, automaton_ofAutomaton]
          rfl

namespace Store

/-- One command keeps all stores coherent, and in step with the session. -/
theorem coherent_after {stores : List Store} (h : ∀ st ∈ stores, st.Coherent) (c : Command) :
    (∀ st ∈ after stores c, st.Coherent) ∧
      (after stores c).map automaton = Session.after (stores.map automaton) c := by
  unfold after Session.after
  rcases c.execute_spec h with ⟨f, hc, hp⟩ | ⟨stores', hc, h', hp⟩
  · rw [hc, hp]
    exact ⟨h, rfl⟩
  · rw [hc, hp]
    exact ⟨h', rfl⟩

theorem coherent_foldl {stores : List Store} (h : ∀ st ∈ stores, st.Coherent) (cs : List Command) :
    (∀ st ∈ cs.foldl after stores, st.Coherent) ∧
      (cs.foldl after stores).map automaton = cs.foldl Session.after (stores.map automaton) := by
  induction cs generalizing stores with
  | nil => exact ⟨h, rfl⟩
  | cons c cs ih =>
    obtain ⟨hafter, hsession⟩ := coherent_after h c
    rw [List.foldl_cons, List.foldl_cons, ← hsession]
    exact ih hafter

theorem coherent_empty : ({} : Store).Coherent := by
  refine ⟨rfl, ?_, ?_⟩
  · intro slot hslot
    exact absurd hslot (Array.not_mem_empty slot)
  · rintro s ⟨⟩

/-- Whatever the commands are, every automaton that is kept has one flag a state, a destination for each
label, and only members as destinations and as initial state; what is kept is what the session holds;
and a command that fails leaves all of it as it was. -/
theorem coherent_run (cs : List Command) :
    (∀ st ∈ run cs, st.Coherent) ∧ (run cs).map automaton = Session.run cs ∧
      ∀ (c : Command) f stores, c.execute.run (run cs) = .error f stores → stores = run cs := by
  obtain ⟨hcoherent, hsession⟩ := coherent_foldl (List.forall_mem_singleton.2 coherent_empty) cs
  refine ⟨hcoherent, hsession, ?_⟩
  intro c f stores h
  rcases c.execute_spec hcoherent with ⟨f', hc, -⟩ | ⟨stores', hc, -⟩
  · cases hc.symm.trans h
    rfl
  · cases hc.symm.trans h

/-- Two states with an empty move between them, the second one accepting, and what is made of them. -/
def twoStates : List Command :=
  [.edit 0 (.addState none none), .edit 0 (.addState (some "end") none), .edit 0 (.setInitial 0),
    .edit 0 (.addTransition 0 .epsilon 1), .edit 0 (.setAccepting 1 true), .derive 0 .minimize,
    .derive 0 .determinize, .derive 1 .trim]

/-- A third state is asked for. -/
theorem coherent_run_twoStates :
    (∀ st ∈ run twoStates, st.Coherent) ∧
    ∃ f stores, (Command.edit 0 (.addTransition 1 (.symbol 'a') 2)).execute.run (run twoStates) =
      .error f stores ∧ stores = run twoStates ∧ stores.length = 3 := by
  obtain ⟨hcoherent, -, hfails⟩ := coherent_run twoStates
  have h : (Command.edit 0 (.addTransition 1 (.symbol 'a') 2)).execute.run (run twoStates) =
      .error (.misuse (.foreignDest 2)) (run twoStates) := by
    rfl
  refine ⟨hcoherent, _, _, h, hfails _ _ _ h, ?_⟩
  rfl

end Store

end PatternAutomata
