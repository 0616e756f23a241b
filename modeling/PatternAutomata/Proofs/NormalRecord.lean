import PatternAutomata.Proofs.FirstFault
import PatternAutomata.Proofs.Naming

/-!
# Records in normal form

A record may list the destinations of a label in any order, more than once, or none at all.  The
automaton that is read from it keeps none of this: states are numbered in the order of their names, so
what it writes has each list ascending, without repeats, and no empty list (`Record.normal`).

    r.toAutomaton = .ok b → b.toRecord = r.normal                     (toRecord_of_toAutomaton)
    a.toRecord.normal = a.toRecord ↔ a.NamesAscend                    (normal_toRecord_eq_iff)

An automaton writes its lists in the order of its states.  So its record comes back unchanged exactly
when the names ascend with the states along each list, which they do among the first ten default
names and not beyond: `S10` comes before `S2`.
-/

namespace PatternAutomata

open StrictTotal

/-! ## Maps -/

namespace OrderedMap

variable {κ β γ : Type} [StrictTotal κ]

/-- The entries whose values have an image, with this image. -/
def filterMap (f : β → Option γ) (m : OrderedMap κ β) : OrderedMap κ γ :=
  ⟨m.entries.filterMap fun e => (f e.2).map fun v => (e.1, v), by
    refine List.pairwise_filterMap.2 (m.ascending.imp ?_)
    intro e e' hlt x hx x' hx'
    obtain ⟨v, -, rfl⟩ := Option.map_eq_some_iff.1 hx
    obtain ⟨v', -, rfl⟩ := Option.map_eq_some_iff.1 hx'
    exact hlt⟩

/-- The same keys with the images of their values. -/
def map (f : β → γ) (m : OrderedMap κ β) : OrderedMap κ γ := m.filterMap fun v => some (f v)

theorem mem_entries_filterMap {f : β → Option γ} {m : OrderedMap κ β} {k : κ} {w : γ} :
    (k, w) ∈ (m.filterMap f).entries ↔ ∃ v, (k, v) ∈ m.entries ∧ f v = some w := by
  unfold filterMap
  rw [List.mem_filterMap]
  constructor
  · rintro ⟨⟨k', v⟩, hm, he⟩
    obtain ⟨w', hw, e⟩ := Option.map_eq_some_iff.1 he
    cases e
    exact ⟨v, hm, hw⟩
  · rintro ⟨v, hm, hw⟩
    exact ⟨(k, v), hm, by rw [hw]; rfl⟩

theorem get?_filterMap [DecidableEq κ] (f : β → Option γ) (m : OrderedMap κ β) (k : κ) :
    (m.filterMap f).get? k = (m.get? k).bind f := by
  apply Option.ext
  intro w
  rw [get?_eq_some_iff, mem_entries_filterMap, Option.bind_eq_some_iff]
  simp only [get?_eq_some_iff]

theorem get?_map [DecidableEq κ] (f : β → γ) (m : OrderedMap κ β) (k : κ) :
    (m.map f).get? k = (m.get? k).map f := by
  rw [map, get?_filterMap, Option.map_eq_bind]
  rfl

end OrderedMap

/-! ## Normal form -/

/-- The same names, ascending and without repeats. -/
def Destinations.sorted (ds : Destinations) : Destinations :=
  ofNames (OrderedSet.ofList ds.names).toList

/-- The names sorted, if there is one. -/
def Destinations.normal? (ds : Destinations) : Option Destinations :=
  if ds.names = [] then none else some ds.sorted

/-- The state with its destinations sorted, and without labels that lead nowhere. -/
def StateRecord.normal (sr : StateRecord) : StateRecord :=
  { sr with transitions := sr.transitions.filterMap Destinations.normal? }

/-- The record with all its states in normal form. -/
def Record.normal (r : Record) : Record := { r with states := r.states.map StateRecord.normal }

theorem Destinations.normal?_eq_some_iff {ds ds' : Destinations} :
    ds.normal? = some ds' ↔ ds.names ≠ [] ∧ ds.sorted = ds' := by
  unfold normal?
  by_cases h : ds.names = [] <;> simp [h]

/-! ## Destinations of a label -/

namespace Automaton

variable {a : Automaton} {s t : State} {l : Label} {dests : List State}

/-- The destinations in a group ascend, as the arrows do. -/
theorem pairwise_lt_of_mem_groupByLabel {rs : List Arrow} (h : rs.Pairwise lt)
    (hg : (l, dests) ∈ groupByLabel rs) : dests.Pairwise (· < ·) := by
  induction rs generalizing l dests with
  | nil => cases hg
  | cons r rest ih =>
    obtain ⟨hr, hrest⟩ := List.pairwise_cons.1 h
    rw [groupByLabel] at hg
    split at hg
    · cases List.mem_singleton.1 hg
      exact List.pairwise_singleton _ _
    · next m ds groups hgroups =>
      have hfirst : (m, ds) ∈ groupByLabel rest := hgroups ▸ List.mem_cons_self
      split at hg
      · next e =>
        rcases List.mem_cons.1 hg with e' | hg
        · cases e'
          refine (ih hrest hfirst).cons fun t ht => ?_
          have hlt : lt r ⟨l, t⟩ := hr _ (mem_groupByLabel.1 ⟨ds, hfirst, ht⟩)
          rcases lt_prod_iff.1 hlt with hl | ⟨-, ht⟩
          · exact absurd e (StrictTotal.ne_of_lt hl)
          · exact ht
        · exact ih hrest (hgroups ▸ List.mem_cons_of_mem _ hg)
      · rcases List.mem_cons.1 hg with e' | hg
        · cases e'
          exact List.pairwise_singleton _ _
        · exact ih hrest (hgroups ▸ hg)

/-- A label has one group. -/
theorem eq_of_mem_next {dests' : List State} (h : (l, dests) ∈ a.next s)
    (h' : (l, dests') ∈ a.next s) : dests = dests' := by
  have hnodup : ((a.next s).map Prod.fst).Nodup :=
    List.pairwise_map.2 ((pairwise_groupByLabel (pairwise_arrows a s)).imp StrictTotal.ne_of_lt)
  have e : ((l, dests) : Label × List State) = (l, dests') :=
    List.inj_on_of_nodup_map hnodup h h' rfl
  exact (Prod.mk.injEq .. ▸ e).2

theorem mem_dests_iff (h : (l, dests) ∈ a.next s) :
    t ∈ dests ↔ (⟨l, t⟩ : Arrow) ∈ a.arrows s := by
  constructor
  · intro ht
    exact mem_next_iff.1 ⟨dests, h, ht⟩
  · intro hr
    obtain ⟨dests', h', ht⟩ := mem_next_iff.2 hr
    rwa [eq_of_mem_next h h']

/-- Whether the names of its destinations ascend with the states for each label. -/
def NamesAscend (a : Automaton) : Prop :=
  ∀ s, ∀ g ∈ a.next s, (g.2.map a.name).Pairwise lt

end Automaton

/-! ## Reading and writing again -/

namespace Record

open Automaton

variable {r : Record} {b : Automaton} {s : State} {l : Label}

namespace Reads

variable (h : r.Reads b)

include h

/-- States are numbered in the order of their names. -/
theorem lt_name_of_lt {i j : State} (hij : i < j) (hj : j < b.size) : lt (b.name i) (b.name j) := by
  have hi := h.named_iff.1 ⟨Nat.lt_trans hij hj, rfl⟩
  have hj := h.named_iff.1 ⟨hj, rfl⟩
  obtain ⟨hi', ei⟩ := List.getElem?_eq_some_iff.1 hi
  obtain ⟨hj', ej⟩ := List.getElem?_eq_some_iff.1 hj
  have hkeys : r.states.keys.Pairwise lt := List.pairwise_map.2 r.states.ascending
  rw [← ei, ← ej]
  exact List.pairwise_iff_getElem.1 hkeys i j hi' hj' hij

theorem spellable : b.Spellable := by
  intro s x hx
  have hs := lt_size_of_mem_arrows hx
  have he := List.getElem?_eq_getElem (h.size ▸ hs)
  obtain ⟨tr, -, hparse, -⟩ := (h.mem_arrows he).1 hx
  exact (Label.parse?_eq_some_iff.1 hparse).2

theorem namesAscend : b.NamesAscend := by
  intro s g hg
  refine List.pairwise_map.2 ((pairwise_lt_of_mem_groupByLabel (pairwise_arrows b s) hg).imp_of_mem ?_)
  intro i j _ hj hij
  have hr : (⟨g.1, j⟩ : Arrow) ∈ b.arrows s := (mem_dests_iff hg).1 hj
  exact h.lt_name_of_lt hij (h.wellFormed.dest_lt s _ hr)

variable {e : String × StateRecord} (he : r.states.entries[s]? = some e)

include he

/-- The text of a label finds its transition. -/
theorem mem_arrows_iff {tr : String × Destinations} (htr : tr ∈ e.2.transitions.entries)
    (hl : Label.parse? tr.1 = some l) {t : State} :
    (⟨l, t⟩ : Arrow) ∈ b.arrows s ↔ ∃ m ∈ tr.2.names, b.Named m t := by
  rw [h.mem_arrows he]
  constructor
  · rintro ⟨tr', htr', hl', hm⟩
    have ekey : tr'.1 = tr.1 := by
      rw [(Label.parse?_eq_some_iff.1 hl').1, (Label.parse?_eq_some_iff.1 hl).1]
    have etr : tr' = tr := List.inj_on_of_nodup_map e.2.transitions.nodup_keys htr' htr ekey
    rwa [etr] at hm
  · intro hm
    exact ⟨tr, htr, hl, hm⟩

/-- The group of a label has the names that are listed for its text, in order. -/
theorem map_name_eq (hc : r.Closed) {tr : String × Destinations}
    (htr : tr ∈ e.2.transitions.entries) (hl : Label.parse? tr.1 = some l) {dests : List State}
    (hg : (l, dests) ∈ b.next s) : dests.map b.name = (OrderedSet.ofList tr.2.names).toList := by
  refine OrderedSet.eq_of_mem_iff (h.namesAscend s _ hg) (OrderedSet.ascending _) fun m => ?_
  rw [OrderedSet.mem_toList, OrderedSet.mem_ofList, List.mem_map]
  simp only [mem_dests_iff hg, h.mem_arrows_iff he htr hl]
  constructor
  · rintro ⟨t, ⟨m', hm', -, rfl⟩, rfl⟩
    exact hm'
  · intro hm
    have hkey := hc.dest e (List.mem_of_getElem? he) tr htr m hm
    obtain ⟨t, ht⟩ := List.mem_iff_getElem?.1 hkey
    have hnamed : b.Named m t := h.named_iff.2 ht
    exact ⟨t, ⟨m, hm, hnamed⟩, hnamed.2⟩

/-- A state is written as the normal form of what was read for it. -/
theorem stateRecord_eq (hc : r.Closed) : b.stateRecord s = e.2.normal := by
  have hmem := List.mem_of_getElem? he
  have htransitions : (b.stateRecord s).transitions = e.2.normal.transitions := by
    refine OrderedMap.eq_of_entries_eq (OrderedMap.eq_of_mem_iff (OrderedMap.ascending _)
      (OrderedMap.ascending _) ?_)
    rintro ⟨n, ds⟩
    rw [mem_transitions_stateRecord h.spellable]
    show _ ↔ (n, ds) ∈ (e.2.transitions.filterMap Destinations.normal?).entries
    rw [OrderedMap.mem_entries_filterMap]
    simp only [Destinations.normal?_eq_some_iff, Prod.mk.injEq]
    constructor
    · rintro ⟨⟨l, dests⟩, hg, rfl, rfl⟩
      obtain ⟨t, ht⟩ := List.exists_mem_of_ne_nil _ (ne_nil_of_mem_groupByLabel hg)
      obtain ⟨⟨n, ds⟩, htr, hl, m, hm, -⟩ := (h.mem_arrows he).1 ((mem_dests_iff hg).1 ht)
      have hn : n = l.text := (Label.parse?_eq_some_iff.1 hl).1
      refine ⟨ds, hn ▸ htr, List.ne_nil_of_mem hm, ?_⟩
      rw [h.map_name_eq he hc htr hl hg]
      rfl
    · rintro ⟨ds', htr, hne, rfl⟩
      obtain ⟨l, hl⟩ := hc.label e hmem _ htr
      obtain ⟨m, hm⟩ := List.exists_mem_of_ne_nil _ hne
      obtain ⟨t, ht⟩ := List.mem_iff_getElem?.1 (hc.dest e hmem _ htr m hm)
      have hr : (⟨l, t⟩ : Arrow) ∈ b.arrows s :=
        (h.mem_arrows_iff he htr hl).2 ⟨m, hm, h.named_iff.2 ht⟩
      obtain ⟨dests, hg, -⟩ := mem_next_iff.2 hr
      refine ⟨(l, dests), hg, (Label.parse?_eq_some_iff.1 hl).1, ?_⟩
      rw [h.map_name_eq he hc htr hl hg]
      rfl
  show StateRecord.mk (b.accepting s) (b.stateRecord s).transitions = _
  rw [h.accepting he, htransitions]
  rfl

end Reads

/-- What is read from a record is written in normal form. -/
theorem toRecord_of_toAutomaton (hb : r.toAutomaton = .ok b) : b.toRecord = r.normal := by
  have h := reads_of_toAutomaton hb
  have hc := closed_of_toAutomaton hb
  have hstates : b.toRecord.states = r.normal.states := by
    refine OrderedMap.eq_of_entries_eq (OrderedMap.eq_of_mem_iff (OrderedMap.ascending _)
      (OrderedMap.ascending _) ?_)
    rintro ⟨n, sr⟩
    rw [mem_entries_toRecord h.uniquelyNamed]
    show _ ↔ (n, sr) ∈ (r.states.filterMap fun v => some v.normal).entries
    rw [OrderedMap.mem_entries_filterMap]
    simp only [Prod.mk.injEq, Option.some.injEq]
    constructor
    · rintro ⟨s, hs, rfl, rfl⟩
      have he := List.getElem?_eq_getElem (h.size ▸ hs)
      have hkey := h.named_iff.1 ⟨hs, rfl⟩
      rw [OrderedMap.keys, List.getElem?_map, he] at hkey
      refine ⟨_, ?_, (h.stateRecord_eq he hc).symm⟩
      rw [← Option.some.inj hkey]
      exact List.getElem_mem _
    · rintro ⟨v, hv, rfl⟩
      obtain ⟨s, he⟩ := List.mem_iff_getElem?.1 hv
      have hkey : r.states.keys[s]? = some n := by
        rw [OrderedMap.keys, List.getElem?_map, he]
        rfl
      obtain ⟨hs, hn⟩ := h.named_iff.2 hkey
      exact ⟨s, hs, hn.symm, (h.stateRecord_eq he hc).symm⟩
  show Record.mk (b.initial.map b.name) b.toRecord.states = _
  rw [← h.starting_eq, hstates]
  rfl

end Record

/-! ## Records that come back unchanged -/

namespace Automaton

variable {a : Automaton} {s : State}

theorem get?_states_toRecord (hn : a.UniquelyNamed) (hs : s < a.size) :
    a.toRecord.states.get? (a.name s) = some (a.stateRecord s) :=
  OrderedMap.get?_eq_some_iff.2 ((mem_entries_toRecord hn).2 ⟨s, hs, rfl⟩)

theorem get?_transitions_stateRecord (hl : a.Spellable) {g : Label × List State}
    (hg : g ∈ a.next s) :
    (a.stateRecord s).transitions.get? g.1.text =
      some (Destinations.ofNames (g.2.map a.name)) :=
  OrderedMap.get?_eq_some_iff.2 ((mem_transitions_stateRecord hl).2 ⟨g, hg, rfl⟩)

theorem normal_stateRecord_eq_iff (hl : a.Spellable) :
    (a.stateRecord s).normal = a.stateRecord s ↔
      ∀ g ∈ a.next s, (g.2.map a.name).Pairwise lt := by
  constructor
  · intro h g hg
    have htransitions := congrArg (fun sr => sr.transitions.get? g.1.text) h
    have hget : ((a.stateRecord s).transitions.get? g.1.text).bind Destinations.normal? =
        (a.stateRecord s).transitions.get? g.1.text := by
      rw [← OrderedMap.get?_filterMap]
      exact htransitions
    rw [get?_transitions_stateRecord hl hg] at hget
    have hsorted := congrArg Destinations.names (Destinations.normal?_eq_some_iff.1 hget).2
    unfold Destinations.sorted at hsorted
    rw [names_ofNames, names_ofNames] at hsorted
    rw [← hsorted]
    exact OrderedSet.ascending _
  · intro h
    have htransitions : (a.stateRecord s).transitions.filterMap Destinations.normal? =
        (a.stateRecord s).transitions := by
      refine OrderedMap.eq_of_entries_eq (OrderedMap.eq_of_mem_iff (OrderedMap.ascending _)
        (OrderedMap.ascending _) ?_)
      -- Each list is its own sorted form.
      have hsame : ∀ tr ∈ (a.stateRecord s).transitions.entries, tr.2.normal? = some tr.2 := by
        intro tr htr
        obtain ⟨g, hg, rfl⟩ := (mem_transitions_stateRecord hl).1 htr
        refine Destinations.normal?_eq_some_iff.2 ⟨?_, ?_⟩
        · rw [names_ofNames]
          exact List.map_eq_nil_iff.not.2 (ne_nil_of_mem_groupByLabel hg)
        · unfold Destinations.sorted
          rw [names_ofNames, OrderedSet.toList_ofList (h g hg)]
      rintro ⟨n, ds⟩
      rw [OrderedMap.mem_entries_filterMap]
      constructor
      · rintro ⟨ds', htr, e⟩
        have e' := (hsame _ htr).symm.trans e
        cases e'
        exact htr
      · intro htr
        exact ⟨ds, htr, hsame _ htr⟩
    unfold StateRecord.normal
    rw [htransitions]

theorem normal_toRecord_eq_iff (hn : a.UniquelyNamed) (hl : a.Spellable) :
    a.toRecord.normal = a.toRecord ↔ a.NamesAscend := by
  constructor
  · intro h s
    by_cases hs : s < a.size
    · have hget : (a.toRecord.states.get? (a.name s)).map StateRecord.normal =
          a.toRecord.states.get? (a.name s) := by
        rw [← OrderedMap.get?_map]
        exact congrArg (fun r => r.states.get? (a.name s)) h
      rw [get?_states_toRecord hn hs, Option.map_some, Option.some.injEq] at hget
      exact (normal_stateRecord_eq_iff hl).1 hget
    · intro g hg
      rw [next, arrows_of_le (Nat.le_of_not_lt hs)] at hg
      cases hg
  · intro h
    have hstates : a.toRecord.states.map StateRecord.normal = a.toRecord.states := by
      apply OrderedMap.ext
      intro n
      rw [OrderedMap.get?_map]
      cases hget : a.toRecord.states.get? n with
      | none => rfl
      | some sr =>
        obtain ⟨s, -, e⟩ := (mem_entries_toRecord hn).1 (OrderedMap.get?_eq_some_iff.1 hget)
        cases e
        rw [Option.map_some, (normal_stateRecord_eq_iff hl).2 (h s)]
    unfold Record.normal
    rw [hstates]

/-- The default names ascend up to the tenth. -/
theorem lt_defaultName : ∀ j < 10, ∀ i < j, lt (defaultName i) (defaultName j) := by
  decide +kernel

theorem DefaultNamed.namesAscend (h : a.DefaultNamed) (hw : a.WellFormed) (hsize : a.size ≤ 10) :
    a.NamesAscend := by
  intro s g hg
  refine List.pairwise_map.2 ((pairwise_lt_of_mem_groupByLabel (pairwise_arrows a s) hg).imp_of_mem ?_)
  intro i j hi hj hij
  have hi' := hw.dest_lt s _ ((mem_dests_iff hg).1 hi)
  have hj' := hw.dest_lt s _ ((mem_dests_iff hg).1 hj)
  rw [h i hi', h j hj']
  exact lt_defaultName j (Nat.lt_of_lt_of_le hj' hsize) i hij

end Automaton

open Automaton

/-- An automaton is read back from its record, and what it then writes is the record in normal form.
This is the record as it was exactly when names ascend with the states along each list; so it is with
what is built from a postorder text in ten states at most. -/
theorem toRecord_read_eq_normal (a : Automaton) (hw : a.WellFormed) (hn : a.UniquelyNamed)
    (hl : a.Spellable) :
    ∃ b, a.toRecord.toAutomaton = .ok b ∧ b.toRecord = a.toRecord.normal ∧
      (b.toRecord = a.toRecord ↔ a.NamesAscend) ∧
      ∀ text, Automaton.ofPostorder text = .ok a → a.size ≤ 10 → b.toRecord = a.toRecord := by
  obtain ⟨b, hb⟩ := (closed_toRecord hw hn hl).exists_toAutomaton
  have hnormal := Record.toRecord_of_toAutomaton hb
  have hiff : b.toRecord = a.toRecord ↔ a.NamesAscend := by
    rw [hnormal]
    exact normal_toRecord_eq_iff hn hl
  refine ⟨b, hb, hnormal, hiff, ?_⟩
  intro text htext hsize
  obtain ⟨-, -, -, hplain⟩ := Automaton.ofPostorder_spec htext
  exact hiff.2 (hplain.names.namesAscend hw hsize)

/-- Two destinations of one label whose names do not ascend. -/
def crossed : Automaton where
  nodes := #[
    { name := "s", arrows := .ofList [⟨.symbol 'a', 1⟩, ⟨.symbol 'a', 2⟩, ⟨.epsilon, 0⟩] },
    { name := "z", arrows := .ofList [⟨.range 'a' 'm', 2⟩] },
    { name := "y", accepting := true }]
  initial := some 0

theorem toRecord_read_eq_normal_crossed :
    crossed.WellFormed ∧ crossed.UniquelyNamed ∧ crossed.Spellable ∧
      (∃ b, crossed.toRecord.toAutomaton = .ok b ∧ b.toRecord = crossed.toRecord.normal ∧
        (b.toRecord = crossed.toRecord ↔ crossed.NamesAscend)) ∧
      ∃ nfa, Automaton.ofPostorder ['a', 'b', '|', '*'] = .ok nfa ∧ nfa.size ≤ 10 ∧
        ∃ b, nfa.toRecord.toAutomaton = .ok b ∧ b.toRecord = nfa.toRecord := by
  have hw : crossed.WellFormed := by decide
  have hn : crossed.UniquelyNamed := by decide
  have hl : crossed.Spellable := by decide
  obtain ⟨b, hb, hnormal, hiff, -⟩ := toRecord_read_eq_normal crossed hw hn hl
  have hsize : (Automaton.ofPostorder ['a', 'b', '|', '*']).map Automaton.size = .ok 8 := by
    decide +kernel
  obtain ⟨nfa, hnfa⟩ := exists_eq_ok_of_isOk
    (x := Automaton.ofPostorder ['a', 'b', '|', '*']) (by decide +kernel)
  rw [hnfa] at hsize
  have hle : nfa.size ≤ 10 := by
    have : nfa.size = 8 := Except.ok.inj hsize
    omega
  obtain ⟨hw', -, -, hplain⟩ := Automaton.ofPostorder_spec hnfa
  obtain ⟨hn', hl'⟩ := hplain.writable
  obtain ⟨b', hb', -, -, hbuilt⟩ := toRecord_read_eq_normal nfa hw' hn' hl'
  exact ⟨hw, hn, hl, ⟨b, hb, hnormal, hiff⟩, nfa, hnfa, hle, b', hb', hbuilt _ hnfa hle⟩

/-- With twelve states the empty moves of the tenth lead to `S8` and `S11`, and come back in the
order of these names. -/
theorem toRecord_read_ne_fiveStars :
    ∃ nfa b, Automaton.ofPostorder ['a', '*', '*', '*', '*', '*'] = .ok nfa ∧ nfa.WellFormed ∧
      nfa.UniquelyNamed ∧ nfa.Spellable ∧ nfa.toRecord.toAutomaton = .ok b ∧
      b.toRecord ≠ nfa.toRecord := by
  have htenth : (Automaton.ofPostorder ['a', '*', '*', '*', '*', '*']).map
      (fun nfa => (nfa.next 9).all fun g => decide ((g.2.map nfa.name).Pairwise lt)) =
        .ok false := by
    decide +kernel
  obtain ⟨nfa, hnfa⟩ := exists_eq_ok_of_isOk
    (x := Automaton.ofPostorder ['a', '*', '*', '*', '*', '*']) (by decide +kernel)
  rw [hnfa] at htenth
  obtain ⟨hw, -, -, hplain⟩ := Automaton.ofPostorder_spec hnfa
  obtain ⟨hn, hl⟩ := hplain.writable
  obtain ⟨b, hb⟩ := (closed_toRecord hw hn hl).exists_toAutomaton
  refine ⟨nfa, b, hnfa, hw, hn, hl, hb, ?_⟩
  intro e
  rw [Record.toRecord_of_toAutomaton hb] at e
  have hascend := (normal_toRecord_eq_iff hn hl).1 e
  have hall : ((nfa.next 9).all fun g => decide ((g.2.map nfa.name).Pairwise lt)) = true :=
    List.all_eq_true.2 fun g hg => decide_eq_true (hascend 9 g hg)
  cases hall.symm.trans (Except.ok.inj htenth)

end PatternAutomata
