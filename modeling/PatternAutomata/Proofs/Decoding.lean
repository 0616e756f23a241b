import PatternAutomata.Proofs.NormalRecord
import PatternAutomata.Proofs.Trim

/-!
# What is read comes back unchanged

A record from elsewhere need not be one that an automaton writes: its lists may repeat names, be in
any order, hold one name only or none.  What is read from it is written in normal form.  Its states
are in the order of their names (`NamesOrdered`), and an automaton of this kind is read from its own
record as it was, the numbers of its states included:

    a.toRecord.toAutomaton = .ok a                                     (toAutomaton_toRecord_eq_ok)
-/

namespace PatternAutomata

open StrictTotal

namespace Automaton

/-- Whether the states are in the order of their names. -/
def NamesOrdered (a : Automaton) : Prop :=
  ∀ i j, i < j → j < a.size → lt (a.name i) (a.name j)

variable {a b : Automaton}

theorem NamesOrdered.uniquelyNamed (h : a.NamesOrdered) : a.UniquelyNamed := by
  intro s hs t ht e
  rcases Nat.lt_trichotomy s t with hlt | heq | hlt
  · exact absurd e (StrictTotal.ne_of_lt (h s t hlt ht))
  · exact heq
  · exact absurd e.symm (StrictTotal.ne_of_lt (h t s hlt hs))

/-- The record has the states in the same order. -/
theorem NamesOrdered.keys_toRecord (h : a.NamesOrdered) :
    a.toRecord.states.keys = a.states.map a.name := by
  have hkeys : a.toRecord.states.keys.Pairwise lt :=
    List.pairwise_map.2 a.toRecord.states.ascending
  have hnames : (a.states.map a.name).Pairwise lt := by
    refine List.pairwise_map.2 (List.pairwise_lt_range.imp_of_mem fun _ hj hij => ?_)
    exact h _ _ hij (List.mem_range.1 hj)
  refine OrderedSet.eq_of_mem_iff hkeys hnames fun n => ?_
  rw [mem_keys_toRecord h.uniquelyNamed, List.mem_map]
  simp only [states, List.mem_range]

/-- What is read from the record has the same names at the same numbers. -/
theorem NamesOrdered.named_iff (h : a.NamesOrdered) (hb : a.toRecord.Reads b) {n : String}
    {s : State} : a.Named n s ↔ b.Named n s := by
  rw [hb.named_iff, h.keys_toRecord, states, List.getElem?_map, Option.map_eq_some_iff]
  constructor
  · rintro ⟨hs, hn⟩
    exact ⟨s, List.getElem?_range hs, hn⟩
  · rintro ⟨t, ht, hn⟩
    obtain ⟨hs, rfl⟩ := List.getElem?_eq_some_iff.1 ht
    rw [List.length_range] at hs
    rw [List.getElem_range] at hn
    exact ⟨hs, hn⟩

/-- In the order of its names, and without origins, an automaton is read from its record as it was. -/
theorem toAutomaton_toRecord_eq_ok (hw : a.WellFormed) (hl : a.Spellable) (ho : a.NamesOrdered)
    (horigin : ∀ s, a.origin? s = none) : a.toRecord.toAutomaton = .ok a := by
  have hn := ho.uniquelyNamed
  obtain ⟨b, hb⟩ := (closed_toRecord hw hn hl).exists_toAutomaton
  have h := Record.reads_of_toAutomaton hb
  have hnamed : ∀ s < a.size, b.Named (a.name s) s := fun s hs => (ho.named_iff h).1 ⟨hs, rfl⟩
  have hsize : a.size = b.size := by
    refine Nat.le_antisymm (Nat.le_of_not_lt fun hlt => ?_) (Nat.le_of_not_lt fun hlt => ?_)
    · exact Nat.lt_irrefl _ (hnamed _ hlt).1
    · exact Nat.lt_irrefl _ ((ho.named_iff h).2 ⟨hlt, rfl⟩).1
  have heq : a = b := by
    refine eq_of_looks hsize ?initial (fun s hs => (hnamed s hs).2.symm) ?origin ?accepting ?arrows
    case initial =>
      have hstart : a.initial.map a.name = b.initial.map b.name := h.starting_eq
      cases hi : a.initial with
      | none =>
        rw [hi] at hstart
        exact (Option.map_eq_none_iff.1 hstart.symm).symm
      | some s =>
        rw [hi] at hstart
        obtain ⟨t, ht, e⟩ := Option.map_eq_some_iff.1 hstart.symm
        have hat : a.Named (b.name t) t := (ho.named_iff h).2 ⟨h.initial_lt t ht, rfl⟩
        rw [ht, hn s (hw.initial_lt s hi) t hat.1 (e.symm.trans hat.2.symm)]
    case origin =>
      intro s _
      rw [horigin, Record.origin?_of_toAutomaton hb]
    case accepting =>
      intro s hs
      exact (h.accepting (Named.entry hn h ⟨hs, rfl⟩ (hnamed s hs))).symm
    case arrows =>
      rintro s hs ⟨l, t⟩
      rw [Named.mem_arrows hn hl h ⟨hs, rfl⟩ (hnamed s hs)]
      constructor
      · intro hr
        exact ⟨t, hr, hnamed t (hw.dest_lt s _ hr)⟩
      · rintro ⟨t', hr, ht'⟩
        obtain ⟨ht, e⟩ := (ho.named_iff h).2 ht'
        rwa [hn t ht t' (hw.dest_lt s _ hr) e]
  rw [hb, heq]

end Automaton

/-- What is read from a record is written in normal form, and read from this form again as it was. -/
theorem toRecord_read_again (r : Record) (a : Automaton) (ha : r.toAutomaton = .ok a) :
    a.toRecord = r.normal ∧ a.toRecord.toAutomaton = .ok a := by
  have h := Record.reads_of_toAutomaton ha
  refine ⟨Record.toRecord_of_toAutomaton ha, ?_⟩
  exact Automaton.toAutomaton_toRecord_eq_ok h.wellFormed h.spellable
    (fun i j hij hj => h.lt_name_of_lt hij hj) (Record.origin?_of_toAutomaton ha)

/-- A list with repeats, lists of one name and of none, and an empty move. -/
def foreign : Record where
  starting := some "b"
  states := .ofList [
    ("b", {
      terminating := false
      transitions := .ofList [("x", .many ["b", "a", "b"]), ("y", .many []), ("0-9", .many ["a"])] }),
    ("a", {
      terminating := true
      transitions := .ofList [("ε", .single "b")] })]

/-- The record of the same automaton as it is written. -/
def tidied : Record where
  starting := some "b"
  states := .ofList [
    ("a", {
      terminating := true
      transitions := .ofList [("ε", .single "b")] }),
    ("b", {
      terminating := false
      transitions := .ofList [("0-9", .single "a"), ("x", .many ["a", "b"])] })]

theorem toRecord_read_again_foreign :
    foreign.normal = tidied ∧ foreign ≠ tidied ∧ ∃ a, foreign.toAutomaton = .ok a ∧
      a.toRecord = foreign.normal ∧ a.toRecord.toAutomaton = .ok a := by
  obtain ⟨a, ha⟩ := exists_eq_ok_of_isOk (x := foreign.toAutomaton) (by decide +kernel)
  exact ⟨by decide +kernel, by decide +kernel, a, ha, toRecord_read_again foreign a ha⟩

end PatternAutomata
