import Mathlib.Data.List.Nodup
import PatternAutomata.Proofs.LabelText
import PatternAutomata.Proofs.Sequencing

/-!
# Records keep the graph

Reading a record gives the automaton that it describes (`reads_of_toAutomaton`), and there is one when
every label is the text of a label and every name is the name of a state (`Record.Closed`).  Writing
an automaton gives a record with one entry a state and one transition a label, as long as no two
states share a name (`UniquelyNamed`) and no label is the sign of the empty move taken as a symbol
(`Spellable`).  Both together keep everything but the numbers of the states:

    ∃ b, a.toRecord.toAutomaton = .ok b ∧ a.SameByName b             (exists_toAutomaton_toRecord)
-/

namespace PatternAutomata

open StrictTotal

/-! ## Names -/

namespace Automaton

/-- Whether a state has a name. -/
def Named (a : Automaton) (n : String) (s : State) : Prop := s < a.size ∧ a.name s = n

/-- No two states share a name. -/
def UniquelyNamed (a : Automaton) : Prop :=
  ∀ s < a.size, ∀ t < a.size, a.name s = a.name t → s = t

instance (a : Automaton) : Decidable a.UniquelyNamed :=
  inferInstanceAs (Decidable (∀ s < a.size, ∀ t < a.size, a.name s = a.name t → s = t))

end Automaton

/-! ## Reading -/

namespace Record

variable {r : Record} {b : Automaton}

theorem state_eq_ok_iff {n : String} {s : State} :
    r.state n = .ok s ↔ r.states.keys[s]? = some n := by
  unfold state
  split
  · next i hi =>
    obtain ⟨hlt, hn, -⟩ := List.findIdx?_eq_some_iff_getElem.1 hi
    have hkey : r.states.keys[i]? = some n := by
      rw [List.getElem?_eq_getElem hlt, of_decide_eq_true hn]
    rw [Except.ok.injEq]
    constructor
    · rintro rfl
      exact hkey
    · intro hs
      exact (List.getElem?_inj hlt r.states.nodup_keys).1 (hkey.trans hs.symm)
  · next hnone =>
    refine iff_of_false (by simp) fun hs => ?_
    have hne := List.findIdx?_eq_none_iff.1 hnone n (List.mem_of_getElem? hs)
    simp at hne

theorem exists_state_eq_ok {n : String} (h : n ∈ r.states.keys) : ∃ s, r.state n = .ok s := by
  obtain ⟨s, hs⟩ := List.mem_iff_getElem?.1 h
  exact ⟨s, state_eq_ok_iff.2 hs⟩

theorem mem_of_arrows_eq_ok {e : String × Destinations} {rs : List Arrow} (h : r.arrows e = .ok rs)
    {x : Arrow} : x ∈ rs ↔
      Label.parse? e.1 = some x.label ∧ ∃ n ∈ e.2.names, r.states.keys[x.dest]? = some n := by
  unfold arrows at h
  split at h
  · cases h
  · next l hl =>
    obtain ⟨dests, hdests, h⟩ := bind_eq_ok_iff.1 h
    cases h
    simp only [List.mem_map, mem_of_mapM_eq_ok hdests, state_eq_ok_iff, hl, Option.some.injEq]
    constructor
    · rintro ⟨t, hn, rfl⟩
      exact ⟨rfl, hn⟩
    · rintro ⟨rfl, hn⟩
      exact ⟨x.dest, hn, rfl⟩

/-- What an entry says of a state. -/
structure Describes (r : Record) (e : String × StateRecord) (n : Node) : Prop where
  name : n.name = e.1
  accepting : n.accepting = e.2.terminating
  arrows : ∀ x, x ∈ n.arrows ↔ ∃ tr ∈ e.2.transitions.entries,
    Label.parse? tr.1 = some x.label ∧ ∃ m ∈ tr.2.names, r.states.keys[x.dest]? = some m

theorem describes_of_node_eq_ok {e : String × StateRecord} {n : Node} (h : r.node e = .ok n) :
    r.Describes e n := by
  obtain ⟨rss, hrss, h⟩ := bind_eq_ok_iff.1 h
  cases h
  refine ⟨rfl, rfl, fun x => ?_⟩
  rw [OrderedSet.mem_ofList, List.mem_flatten]
  constructor
  · rintro ⟨rs, hrs, hx⟩
    obtain ⟨tr, htr, hok⟩ := (mem_of_mapM_eq_ok hrss).1 hrs
    exact ⟨tr, htr, (mem_of_arrows_eq_ok hok).1 hx⟩
  · rintro ⟨tr, htr, hx⟩
    obtain ⟨i, hi⟩ := List.mem_iff_getElem?.1 htr
    obtain ⟨rs, hrs, hok⟩ := getElem?_of_mapM_eq_ok hrss hi
    exact ⟨rs, List.mem_of_getElem? hrs, (mem_of_arrows_eq_ok hok).2 hx⟩

/-- The automaton is the one that the record describes. -/
structure Reads (r : Record) (b : Automaton) : Prop where
  size : b.size = r.states.entries.length
  node : ∀ (s : State) e, r.states.entries[s]? = some e → ∃ n, b.nodes[s]? = some n ∧ r.Describes e n
  initial : r.starting = b.initial.bind fun s => r.states.keys[s]?
  initial_lt : ∀ s, b.initial = some s → s < b.size

/-- The states are read in order, and then the starting state. -/
theorem toAutomaton_eq_ok_iff : r.toAutomaton = .ok b ↔
    ∃ nodes, r.states.entries.mapM r.node = .ok nodes ∧
      ((r.starting = none ∧ b = ⟨nodes.toArray, none⟩) ∨
        ∃ n s, r.starting = some n ∧ r.state n = .ok s ∧ b = ⟨nodes.toArray, some s⟩) := by
  unfold toAutomaton
  rw [bind_eq_ok_iff]
  refine exists_congr fun nodes => and_congr_right fun _ => ?_
  cases r.starting with
  | none =>
    show Except.ok _ = Except.ok b ↔ _
    simp [eq_comm]
  | some n =>
    dsimp only
    cases hs : r.state n with
    | error e =>
      refine iff_of_false (fun h => by cases h) ?_
      rintro (⟨h, -⟩ | ⟨_, _, ⟨⟩, hok, -⟩)
      · cases h
      · rw [hs] at hok
        cases hok
    | ok s =>
      show Except.ok _ = Except.ok b ↔ _
      simp [hs, eq_comm]

theorem mapM_node_of_toAutomaton (h : r.toAutomaton = .ok b) :
    r.states.entries.mapM r.node = .ok b.nodes.toList := by
  obtain ⟨nodes, hnodes, ⟨-, rfl⟩ | ⟨n, s, -, -, rfl⟩⟩ := toAutomaton_eq_ok_iff.1 h
  · exact hnodes
  · exact hnodes

/-- A state that is read stands for no others. -/
theorem origin?_of_toAutomaton (h : r.toAutomaton = .ok b) (s : State) : b.origin? s = none := by
  unfold Automaton.origin?
  split
  · next n hn =>
    have hmem : n ∈ b.nodes.toList := List.mem_of_getElem? (Array.getElem?_toList.trans hn)
    obtain ⟨e, -, he⟩ := (mem_of_mapM_eq_ok (mapM_node_of_toAutomaton h)).1 hmem
    obtain ⟨rss, -, he⟩ := bind_eq_ok_iff.1 he
    cases he
    rfl
  · rfl

theorem reads_of_toAutomaton (h : r.toAutomaton = .ok b) : r.Reads b := by
  obtain ⟨nodes, -, hstart⟩ := toAutomaton_eq_ok_iff.1 h
  have hnodes := mapM_node_of_toAutomaton h
  have hsize : b.size = r.states.entries.length := (mapM_eq_ok_iff.1 hnodes).length_eq.symm
  refine ⟨hsize, fun s e he => ?_, ?_, fun s hs => ?_⟩
  · obtain ⟨n, hn, hok⟩ := getElem?_of_mapM_eq_ok hnodes he
    exact ⟨n, Array.getElem?_toList.symm.trans hn, describes_of_node_eq_ok hok⟩
  · rcases hstart with ⟨hs, rfl⟩ | ⟨n, s, hs, hok, rfl⟩
    · exact hs
    · rw [hs]
      exact (state_eq_ok_iff.1 hok).symm
  · rcases hstart with ⟨-, rfl⟩ | ⟨n, t, -, hok, rfl⟩
    · cases hs
    · cases hs
      have hkey := (List.getElem?_eq_some_iff.1 (state_eq_ok_iff.1 hok)).1
      rwa [hsize, ← List.length_map (f := Prod.fst)]

namespace Reads

variable (h : r.Reads b) {n : String} {s : State}

include h

theorem named_iff : b.Named n s ↔ r.states.keys[s]? = some n := by
  have hname : ∀ e, r.states.entries[s]? = some e → b.name s = e.1 := fun e he => by
    obtain ⟨nd, hnd, hd⟩ := h.node s e he
    rw [Automaton.name, hnd]
    exact hd.name
  rw [OrderedMap.keys, List.getElem?_map, Option.map_eq_some_iff]
  constructor
  · rintro ⟨hs, rfl⟩
    have he := List.getElem?_eq_getElem (h.size ▸ hs)
    exact ⟨_, he, (hname _ he).symm⟩
  · rintro ⟨e, he, rfl⟩
    exact ⟨h.size ▸ (List.getElem?_eq_some_iff.1 he).1, hname e he⟩

theorem uniquelyNamed : b.UniquelyNamed := by
  intro s hs t ht e
  have hkey := h.named_iff.1 ⟨hs, e⟩
  have hlt := (List.getElem?_eq_some_iff.1 hkey).1
  exact (List.getElem?_inj hlt r.states.nodup_keys).1 (hkey.trans (h.named_iff.1 ⟨ht, rfl⟩).symm)

theorem accepting {e : String × StateRecord} (he : r.states.entries[s]? = some e) :
    b.accepting s = e.2.terminating := by
  obtain ⟨nd, hnd, hd⟩ := h.node s e he
  rw [Automaton.accepting, hnd]
  exact hd.accepting

theorem mem_arrows {e : String × StateRecord} (he : r.states.entries[s]? = some e) {x : Arrow} :
    x ∈ b.arrows s ↔ ∃ tr ∈ e.2.transitions.entries,
      Label.parse? tr.1 = some x.label ∧ ∃ m ∈ tr.2.names, b.Named m x.dest := by
  obtain ⟨nd, hnd, hd⟩ := h.node s e he
  rw [Automaton.arrows, hnd]
  simp only [h.named_iff]
  exact hd.arrows x

theorem wellFormed : b.WellFormed := by
  refine ⟨fun s x hx => ?_, h.initial_lt⟩
  have hs := Automaton.lt_size_of_mem_arrows hx
  have he := List.getElem?_eq_getElem (h.size ▸ hs)
  obtain ⟨tr, -, -, m, -, hm⟩ := (h.mem_arrows he).1 hx
  exact hm.1

theorem starting_eq : r.starting = b.initial.map b.name := by
  rw [h.initial]
  cases hi : b.initial with
  | none => rfl
  | some s => exact h.named_iff.1 ⟨h.initial_lt s hi, rfl⟩

end Reads

/-- Every label is the text of a label, and every name the name of a state. -/
structure Closed (r : Record) : Prop where
  label : ∀ e ∈ r.states.entries, ∀ tr ∈ e.2.transitions.entries, ∃ l, Label.parse? tr.1 = some l
  dest : ∀ e ∈ r.states.entries, ∀ tr ∈ e.2.transitions.entries, ∀ n ∈ tr.2.names,
    n ∈ r.states.keys
  starting : ∀ n, r.starting = some n → n ∈ r.states.keys

theorem Closed.exists_toAutomaton (h : r.Closed) : ∃ b, r.toAutomaton = .ok b := by
  have hnode : ∀ e ∈ r.states.entries, ∃ n, r.node e = .ok n := fun e he => by
    have harrows : ∀ tr ∈ e.2.transitions.entries, ∃ rs, r.arrows tr = .ok rs := fun tr htr => by
      obtain ⟨l, hl⟩ := h.label e he tr htr
      obtain ⟨dests, hdests⟩ := exists_mapM_eq_ok fun n hn =>
        exists_state_eq_ok (h.dest e he tr htr n hn)
      unfold arrows
      rw [hl]
      exact ⟨_, bind_eq_ok_iff.2 ⟨dests, hdests, rfl⟩⟩
    obtain ⟨rss, hrss⟩ := exists_mapM_eq_ok harrows
    exact ⟨_, bind_eq_ok_iff.2 ⟨rss, hrss, rfl⟩⟩
  obtain ⟨nodes, hnodes⟩ := exists_mapM_eq_ok hnode
  cases hs : r.starting with
  | none => exact ⟨_, toAutomaton_eq_ok_iff.2 ⟨nodes, hnodes, .inl ⟨hs, rfl⟩⟩⟩
  | some n =>
    obtain ⟨s, hok⟩ := exists_state_eq_ok (h.starting n hs)
    exact ⟨_, toAutomaton_eq_ok_iff.2 ⟨nodes, hnodes, .inr ⟨n, s, hs, hok, rfl⟩⟩⟩

end Record

namespace Automaton

/-! ## Writing -/

/-- No label is the sign of the empty move taken as a symbol. -/
def Spellable (a : Automaton) : Prop :=
  ∀ s, ∀ r ∈ a.arrows s, r.label ≠ .symbol Label.epsilonChar

instance (a : Automaton) : Decidable a.Spellable :=
  decidable_of_iff (∀ s ∈ a.states, ∀ r ∈ a.arrows s, r.label ≠ .symbol Label.epsilonChar)
    forall_arrows_iff.symm

variable {a : Automaton} {s : State}

theorem mem_entries_toRecord (hn : a.UniquelyNamed) {e : String × StateRecord} :
    e ∈ a.toRecord.states.entries ↔ ∃ s < a.size, e = (a.name s, a.stateRecord s) := by
  have hnodup : ((a.states.map fun s => (a.name s, a.stateRecord s)).map Prod.fst).Nodup := by
    rw [List.map_map]
    refine List.nodup_range.map_on fun s hs t ht e => ?_
    exact hn s (List.mem_range.1 hs) t (List.mem_range.1 ht) e
  obtain ⟨n, sr⟩ := e
  rw [toRecord, OrderedMap.mem_entries_ofList hnodup, List.mem_map]
  simp only [states, List.mem_range, eq_comm]

theorem mem_keys_toRecord (hn : a.UniquelyNamed) {n : String} :
    n ∈ a.toRecord.states.keys ↔ ∃ s < a.size, a.name s = n := by
  rw [OrderedMap.mem_keys]
  simp only [mem_entries_toRecord hn, Prod.mk.injEq]
  constructor
  · rintro ⟨_, s, hs, rfl, -⟩
    exact ⟨s, hs, rfl⟩
  · rintro ⟨s, hs, rfl⟩
    exact ⟨_, s, hs, rfl, rfl⟩

theorem names_ofNames (ns : List String) : (Destinations.ofNames ns).names = ns := by
  match ns with
  | [] => rfl
  | [_] => rfl
  | _ :: _ :: _ => rfl

theorem parse?_text_eq_some_iff {l m : Label} (hl : l ≠ .symbol Label.epsilonChar) :
    Label.parse? l.text = some m ↔ l = m := by
  rw [Label.parse?_text, Option.some.injEq, Label.reread_eq_self_iff.2 hl]

theorem mem_next_iff {l : Label} {t : State} :
    (∃ dests, (l, dests) ∈ a.next s ∧ t ∈ dests) ↔ (⟨l, t⟩ : Arrow) ∈ a.arrows s :=
  mem_groupByLabel

theorem Spellable.of_mem_next (hl : a.Spellable) {g : Label × List State} (h : g ∈ a.next s) :
    g.1 ≠ .symbol Label.epsilonChar := by
  obtain ⟨t, ht⟩ := List.exists_mem_of_ne_nil _ (ne_nil_of_mem_groupByLabel h)
  exact hl s _ (mem_next_iff.1 ⟨g.2, h, ht⟩)

theorem mem_transitions_stateRecord (hl : a.Spellable) {tr : String × Destinations} :
    tr ∈ (a.stateRecord s).transitions.entries ↔
      ∃ g ∈ a.next s, tr = (g.1.text, Destinations.ofNames (g.2.map a.name)) := by
  obtain ⟨n, ds⟩ := tr
  rw [← OrderedMap.get?_eq_some_iff, get?_stateRecord_eq_some_iff]
  constructor
  · rintro ⟨g, hg, rfl, rfl, -⟩
    exact ⟨g, hg, rfl⟩
  · rintro ⟨g, hg, heq⟩
    cases heq
    exact ⟨g, hg, rfl, rfl, fun _ g' hg' => hl.of_mem_next hg'⟩

/-- The transitions of a state lead from its labels to the names of their destinations. -/
theorem exists_mem_transitions (hl : a.Spellable) {l : Label} {P : String → Prop} :
    (∃ tr ∈ (a.stateRecord s).transitions.entries, Label.parse? tr.1 = some l ∧
      ∃ n ∈ tr.2.names, P n) ↔ ∃ t, (⟨l, t⟩ : Arrow) ∈ a.arrows s ∧ P (a.name t) := by
  simp only [mem_transitions_stateRecord hl, ← mem_next_iff]
  constructor
  · rintro ⟨_, ⟨g, hg, rfl⟩, hparse, n, hn, hp⟩
    rw [parse?_text_eq_some_iff (hl.of_mem_next hg)] at hparse
    rw [names_ofNames] at hn
    obtain ⟨t, ht, rfl⟩ := List.mem_map.1 hn
    exact ⟨t, ⟨g.2, hparse ▸ hg, ht⟩, hp⟩
  · rintro ⟨t, ⟨dests, hg, ht⟩, hp⟩
    refine ⟨_, ⟨_, hg, rfl⟩, (parse?_text_eq_some_iff (hl.of_mem_next hg)).2 rfl, a.name t, ?_, hp⟩
    rw [names_ofNames]
    exact List.mem_map_of_mem ht

/-- What is written can be read. -/
theorem closed_toRecord (hw : a.WellFormed) (hn : a.UniquelyNamed) (hl : a.Spellable) :
    a.toRecord.Closed := by
  refine ⟨fun e he tr htr => ?_, fun e he tr htr n hmem => ?_, fun n hstart => ?_⟩
  · obtain ⟨s, hs, rfl⟩ := (mem_entries_toRecord hn).1 he
    obtain ⟨g, hg, rfl⟩ := (mem_transitions_stateRecord hl).1 htr
    exact ⟨g.1, (parse?_text_eq_some_iff (hl.of_mem_next hg)).2 rfl⟩
  · obtain ⟨s, hs, rfl⟩ := (mem_entries_toRecord hn).1 he
    obtain ⟨g, hg, rfl⟩ := (mem_transitions_stateRecord hl).1 htr
    rw [names_ofNames] at hmem
    obtain ⟨t, ht, rfl⟩ := List.mem_map.1 hmem
    have harrow : (⟨g.1, t⟩ : Arrow) ∈ a.arrows s := mem_next_iff.1 ⟨g.2, hg, ht⟩
    exact (mem_keys_toRecord hn).2 ⟨t, hw.dest_lt s _ harrow, rfl⟩
  · obtain ⟨s, hs, rfl⟩ := Option.map_eq_some_iff.1 hstart
    exact (mem_keys_toRecord hn).2 ⟨s, hw.initial_lt s hs, rfl⟩

/-! ## The same graph -/

/-- The automata differ in the numbers of their states at most. -/
structure SameByName (a b : Automaton) : Prop where
  names : ∀ n, (∃ s, a.Named n s) ↔ ∃ s, b.Named n s
  accepting : ∀ n s t, a.Named n s → b.Named n t → a.accepting s = b.accepting t
  initial : a.initial.map a.name = b.initial.map b.name
  arrows : ∀ m l n, (∃ s t, a.Named m s ∧ a.Named n t ∧ (⟨l, t⟩ : Arrow) ∈ a.arrows s) ↔
    ∃ s t, b.Named m s ∧ b.Named n t ∧ (⟨l, t⟩ : Arrow) ∈ b.arrows s

section RoundTrip

variable {b : Automaton} {n : String} {i j : State}

theorem Named.entry (hn : a.UniquelyNamed) (h : a.toRecord.Reads b) (ha : a.Named n s)
    (hb : b.Named n i) : a.toRecord.states.entries[i]? = some (n, a.stateRecord s) := by
  have hkey := h.named_iff.1 hb
  rw [OrderedMap.keys, List.getElem?_map, Option.map_eq_some_iff] at hkey
  obtain ⟨e, he, rfl⟩ := hkey
  obtain ⟨t, ht, rfl⟩ := (mem_entries_toRecord hn).1 (List.mem_of_getElem? he)
  rw [he, hn s ha.1 t ht ha.2]

/-- A state of the read automaton has the arrows of the written state of its name. -/
theorem Named.mem_arrows (hn : a.UniquelyNamed) (hl : a.Spellable) (h : a.toRecord.Reads b)
    (ha : a.Named n s) (hb : b.Named n i) {l : Label} :
    (⟨l, j⟩ : Arrow) ∈ b.arrows i ↔
      ∃ t, (⟨l, t⟩ : Arrow) ∈ a.arrows s ∧ b.Named (a.name t) j := by
  rw [h.mem_arrows (ha.entry hn h hb)]
  exact exists_mem_transitions (P := fun m => b.Named m j) hl

theorem exists_named_iff (hn : a.UniquelyNamed) (h : a.toRecord.Reads b) :
    (∃ s, a.Named n s) ↔ ∃ i, b.Named n i := by
  simp only [h.named_iff, ← List.mem_iff_getElem?, mem_keys_toRecord hn]
  rfl

theorem sameByName_of_reads (hw : a.WellFormed) (hn : a.UniquelyNamed) (hl : a.Spellable)
    (h : a.toRecord.Reads b) : a.SameByName b := by
  refine ⟨fun n => exists_named_iff hn h, fun n s i ha hb => ?_, h.starting_eq,
    fun m l n => ⟨?_, ?_⟩⟩
  · rw [h.accepting (ha.entry hn h hb)]
    rfl
  · rintro ⟨s, t, hs, ht, hx⟩
    obtain ⟨i, hi⟩ := (exists_named_iff hn h).1 ⟨s, hs⟩
    obtain ⟨j, hj⟩ := (exists_named_iff hn h).1 ⟨t, ht⟩
    exact ⟨i, j, hi, hj, (hs.mem_arrows hn hl h hi).2 ⟨t, hx, ht.2 ▸ hj⟩⟩
  · rintro ⟨i, j, hi, hj, hx⟩
    obtain ⟨s, hs⟩ := (exists_named_iff hn h).2 ⟨i, hi⟩
    obtain ⟨t, hx, hjt⟩ := (hs.mem_arrows hn hl h hi).1 hx
    exact ⟨s, t, hs, ⟨hw.dest_lt s _ hx, hjt.2.symm.trans hj.2⟩, hx⟩

/-- Written and read back, an automaton is the same but for the numbers of its states. -/
theorem exists_toAutomaton_toRecord (hw : a.WellFormed) (hn : a.UniquelyNamed) (hl : a.Spellable) :
    ∃ b, a.toRecord.toAutomaton = .ok b ∧ b.WellFormed ∧ b.UniquelyNamed ∧ a.SameByName b := by
  obtain ⟨b, hb⟩ := (closed_toRecord hw hn hl).exists_toAutomaton
  have h := Record.reads_of_toAutomaton hb
  exact ⟨b, hb, h.wellFormed, h.uniquelyNamed, sameByName_of_reads hw hn hl h⟩

end RoundTrip

end Automaton

end PatternAutomata
