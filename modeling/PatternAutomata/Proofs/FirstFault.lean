import PatternAutomata.Proofs.Record

/-!
# The first fault of a record

Reading a record looks at its labels and names one after another (`Record.mentions`): state by state
in the order of their names, label by label, a label before the names of its destinations, and the
starting state last.  Each of them is in order or at fault by itself (`Mention.fault?`), and the first
that is at fault is what reading reports:

    error? r.toAutomaton = r.mentions.findSome? (Mention.fault? r)             (error?_toAutomaton)

So a record is read exactly when all its labels are spelled right and all its names are declared.
-/

namespace PatternAutomata

/-! ## Spelling of labels -/

/-- The sign of the empty move, a single character, or two with a dash between them. -/
def Label.Spelled (text : String) : Prop :=
  text = "ε" ∨ (∃ c, text = String.ofList [c]) ∨ ∃ lo hi, text = String.ofList [lo, '-', hi]

/-- These texts are read, and no others. -/
theorem Label.spelled_iff {text : String} : Spelled text ↔ ∃ l, parse? text = some l := by
  constructor
  · rintro (rfl | ⟨c, rfl⟩ | ⟨lo, hi, rfl⟩)
    · exact ⟨epsilon, by decide +kernel⟩
    · by_cases hc : c = epsilonChar
      · exact ⟨epsilon, parse?_eq_some_iff.2 ⟨by rw [hc]; rfl, by simp⟩⟩
      · exact ⟨symbol c, parse?_eq_some_iff.2 ⟨rfl, fun h => hc (Label.symbol.inj h)⟩⟩
    · exact ⟨range lo hi, parse?_eq_some_iff.2 ⟨rfl, by simp⟩⟩
  · rintro ⟨l, hl⟩
    obtain ⟨rfl, -⟩ := parse?_eq_some_iff.1 hl
    cases l with
    | epsilon => exact .inl rfl
    | symbol c => exact .inr (.inl ⟨c, rfl⟩)
    | range lo hi => exact .inr (.inr ⟨lo, hi, rfl⟩)

instance (text : String) : Decidable (Label.Spelled text) :=
  decidable_of_iff ((Label.parse? text).isSome = true)
    (Option.isSome_iff_exists.trans Label.spelled_iff.symm)

/-! ## What a record mentions -/

/-- A text in a record that has to stand for something. -/
inductive Mention where
  | label (text : String)
  | state (name : String)
deriving DecidableEq

/-- A label, and the names of its destinations. -/
def Destinations.mentions (tr : String × Destinations) : List Mention :=
  .label tr.1 :: tr.2.names.map .state

/-- The labels of a state in order, each with its destinations. -/
def StateRecord.mentions (sr : StateRecord) : List Mention :=
  sr.transitions.entries.flatMap Destinations.mentions

/-- The labels and destinations of all states in order, and the starting state. -/
def Record.mentions (r : Record) : List Mention :=
  (r.states.entries.flatMap fun e => e.2.mentions) ++ r.starting.toList.map .state

/-- What is wrong with a mention: a text that spells no label, or a name of no state. -/
def Mention.fault? (r : Record) : Mention → Option RecordError
  | label text => if Label.Spelled text then none else some (.invalidLabel text)
  | state name => if name ∈ r.states.keys then none else some (.unknownState name)

theorem Mention.fault?_label_eq_none_iff {r : Record} {text : String} :
    (label text).fault? r = none ↔ Label.Spelled text := by
  unfold fault?
  split <;> simp_all

theorem Mention.fault?_state_eq_none_iff {r : Record} {name : String} :
    (state name).fault? r = none ↔ name ∈ r.states.keys := by
  unfold fault?
  split <;> simp_all

/-! ## Reading -/

/-- A search through lists that are joined is a search through each. -/
theorem findSome?_flatMap {α β γ : Type} {f : β → Option γ} {g : α → List β} {l : List α} :
    (l.flatMap g).findSome? f = l.findSome? fun x => (g x).findSome? f := by
  induction l with
  | nil => rfl
  | cons x l ih =>
    rw [List.flatMap_cons, List.findSome?_append, List.findSome?_cons, ih]
    cases (g x).findSome? f <;> rfl

namespace Record

variable {r : Record}

theorem error?_state (name : String) : error? (r.state name) = (Mention.state name).fault? r := by
  by_cases h : name ∈ r.states.keys
  · obtain ⟨s, hs⟩ := exists_state_eq_ok h
    rw [hs, Mention.fault?_state_eq_none_iff.2 h]
    rfl
  · have hnone : (r.states.keys.findIdx? fun k => decide (k = name)) = none :=
      List.findIdx?_eq_none_iff.2 fun k hk => decide_eq_false fun e => h (e ▸ hk)
    rw [state, hnone, Mention.fault?, if_neg h]
    rfl

theorem error?_arrows (tr : String × Destinations) :
    error? (r.arrows tr) = (Destinations.mentions tr).findSome? (Mention.fault? r) := by
  rw [Destinations.mentions, List.findSome?_cons]
  unfold arrows
  cases hl : Label.parse? tr.1 with
  | none =>
    have hspelled : ¬ Label.Spelled tr.1 := by simp [Label.spelled_iff, hl]
    rw [Mention.fault?, if_neg hspelled]
    rfl
  | some l =>
    rw [Mention.fault?_label_eq_none_iff.2 (Label.spelled_iff.2 ⟨l, hl⟩)]
    show error? (tr.2.names.mapM r.state >>= fun dests => .ok _) = _
    rw [error?_bind_ok, error?_mapM, List.findSome?_map]
    simp only [error?_state, Function.comp_def]

theorem error?_node (e : String × StateRecord) :
    error? (r.node e) = e.2.mentions.findSome? (Mention.fault? r) := by
  show error? (e.2.transitions.entries.mapM r.arrows >>= fun arrows => .ok _) = _
  rw [error?_bind_ok, error?_mapM, StateRecord.mentions, findSome?_flatMap]
  simp only [error?_arrows]

/-- Reading fails with the first fault. -/
theorem error?_toAutomaton (r : Record) :
    error? r.toAutomaton = r.mentions.findSome? (Mention.fault? r) := by
  unfold toAutomaton
  rw [mentions, List.findSome?_append, findSome?_flatMap]
  simp only [← error?_node]
  rw [← error?_mapM]
  refine error?_bind fun nodes => ?_
  cases r.starting with
  | none => rfl
  | some name =>
    show error? ((r.state name).map some >>= fun initial => .ok _) = _
    rw [error?_bind_ok]
    rw [Option.toList_some, List.map_singleton, List.findSome?_singleton, ← error?_state]
    cases r.state name <;> rfl

/-- A record can be read when nothing that it mentions is at fault. -/
theorem exists_toAutomaton_iff :
    (∃ b, r.toAutomaton = .ok b) ↔ ∀ m ∈ r.mentions, m.fault? r = none := by
  rw [← error?_eq_none_iff, error?_toAutomaton, List.findSome?_eq_none_iff]

/-- Nothing is at fault when the labels are spelled right and the names declared. -/
theorem forall_fault?_eq_none_iff : (∀ m ∈ r.mentions, m.fault? r = none) ↔
    (∀ e ∈ r.states.entries, ∀ tr ∈ e.2.transitions.entries,
      Label.Spelled tr.1 ∧ ∀ n ∈ tr.2.names, n ∈ r.states.keys) ∧
    ∀ n, r.starting = some n → n ∈ r.states.keys := by
  simp only [mentions, StateRecord.mentions, Destinations.mentions, List.forall_mem_append,
    List.forall_mem_flatMap, List.forall_mem_cons, List.forall_mem_map, Option.mem_toList,
    Mention.fault?_label_eq_none_iff, Mention.fault?_state_eq_none_iff]

/-- What can be read names states only, and labels by their texts. -/
theorem closed_of_toAutomaton {b : Automaton} (h : r.toAutomaton = .ok b) : r.Closed := by
  obtain ⟨hstates, hstarting⟩ := forall_fault?_eq_none_iff.1 (exists_toAutomaton_iff.1 ⟨b, h⟩)
  exact {
    label := fun e he tr htr => Label.spelled_iff.1 (hstates e he tr htr).1
    dest := fun e he tr htr => (hstates e he tr htr).2
    starting := hstarting }

/-- A record is read exactly when all its labels are spelled right and its names declared.  When it is
not, the error names the first of them that is at fault. -/
theorem toAutomaton_or_first_fault (r : Record) :
    ((∃ b, r.toAutomaton = .ok b) ↔
      (∀ e ∈ r.states.entries, ∀ tr ∈ e.2.transitions.entries,
        Label.Spelled tr.1 ∧ ∀ n ∈ tr.2.names, n ∈ r.states.keys) ∧
      ∀ n, r.starting = some n → n ∈ r.states.keys) ∧
    ∀ err, r.toAutomaton = .error err ↔ ∃ before m after, r.mentions = before ++ m :: after ∧
      m.fault? r = some err ∧ ∀ m' ∈ before, m'.fault? r = none := by
  constructor
  · exact exists_toAutomaton_iff.trans forall_fault?_eq_none_iff
  · intro err
    rw [← error?_eq_some_iff, error?_toAutomaton]
    exact List.findSome?_eq_some_iff

/-- At fault are the second destination of `a`, the label `ab`, and the starting state. -/
def threeFaults : Record where
  starting := some "q"
  states := .ofList [("p", {
    terminating := false
    transitions := .ofList [("ab", .many []), ("a", .many ["p", "r"])] })]

example : threeFaults.toAutomaton = .error (.unknownState "r") := by decide

end Record

end PatternAutomata
