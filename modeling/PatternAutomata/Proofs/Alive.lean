import PatternAutomata.Proofs.Equivalence
import PatternAutomata.Proofs.SecondPass
import PatternAutomata.Proofs.Trim

/-!
# Nothing dead is compiled

No stage of a compilation has a state that could be left out (`AllAlive`).  The automaton of a postorder
text is threaded; a set of states that a text leads to has a member, and what leads on from this member
leads on from the set; and a block has the residual of its members:

    a.Threaded → a.determinize.AllAlive                                (Threaded.allAlive_determinize)
    a.AllAlive → the blocks of a are alive, and hold each state of a once      (AllAlive.minimize)
-/

namespace PatternAutomata

open Relation

namespace Automaton

variable {a m : Automaton} {s : State}

/-- Whether every state is reached from the initial one and reaches an accepting one. -/
def AllAlive (a : Automaton) : Prop :=
  ∃ i, a.initial = some i ∧ ∀ s < a.size, ReflTransGen a.Moves i s ∧ a.Productive s

theorem AllAlive.mem_live (hw : a.WellFormed) (h : a.AllAlive) (hs : s < a.size) : s ∈ a.live := by
  obtain ⟨i, hi, halive⟩ := h
  exact (mem_live_iff_of_initial hw hi).2 (halive s hs)

theorem AllAlive.hasDeadStates (hw : a.WellFormed) (h : a.AllAlive) : a.hasDeadStates = false := by
  rw [Bool.eq_false_iff, Ne, hasDeadStates_iff]
  rintro ⟨s, hs, hdead⟩
  exact hdead (h.mem_live hw hs)

/-! ## Determinizing -/

theorem Threaded.allAlive (h : a.Threaded) : a.AllAlive := by
  obtain ⟨i, hi, hthread⟩ := h
  refine ⟨i, hi, fun s hs => ?_⟩
  obtain ⟨⟨v, hv⟩, o, ho, w, hw⟩ := hthread s hs
  exact ⟨hv.moves, o, ho, hw.moves⟩

/-- A state of the subset construction is reached over a text that leads to a member, too. -/
theorem exists_path_of_lt_size_determinize (hw : a.WellFormed) (hf : a.Forward)
    (hs : a.initial = some s) {q : State} (hq : q < a.determinize.size) :
    ∃ w t, a.determinize.runFrom 0 w = some q ∧ a.Path s w t := by
  obtain ⟨e, h, he, hrun⟩ := exists_run_determinize hw hf hs
  have hreach : ReflTransGen a.determinize.Moves 0 q := by
    rw [he] at hq ⊢
    rw [ofSubsets, Exploration.size_toAutomaton] at hq
    exact h.reaches (Array.getElem?_eq_getElem hq)
  obtain ⟨w, hw'⟩ := exists_runFrom_of_moves (exclusive_determinize a) hreach
  obtain ⟨⟨t, ht⟩, -⟩ := (hrun w q).1 ((run_eq_runFrom (initial_determinize hs) w).trans hw')
  obtain ⟨s', hs', -, hpath⟩ := (mem_runSet_closure hw).1 ht
  cases List.mem_singleton.1 hs'
  exact ⟨w, t, hw', hpath⟩

/-- What leads on from a member leads on from the set. -/
theorem Threaded.allAlive_determinize (hw : a.WellFormed) (hf : a.Forward) (h : a.Threaded) :
    a.determinize.AllAlive := by
  obtain ⟨s, hs, hthread⟩ := h
  refine ⟨0, initial_determinize hs, fun q hq => ?_⟩
  obtain ⟨v, t, hrun, hv⟩ := exists_path_of_lt_size_determinize hw hf hs hq
  obtain ⟨-, o, ho, w, hw'⟩ := hthread t (hv.lt_size hw (hw.initial_lt s hs))
  have hacc : a.determinize.accepts (v ++ w) = true := by
    rw [accepts_determinize hw hf hs]
    exact (acceptsByAnyPath_iff hw hs).2 ⟨o, hv.append hw', ho⟩
  rw [accepts_eq_acceptsFrom (initial_determinize hs), acceptsFrom_append hrun] at hacc
  exact ⟨moves_of_runFrom hrun, productive_of_acceptsFrom hacc⟩

/-! ## Minimizing -/

/-- Whether each state of `m` stands for some states of `a`, and each state of `a` is in one origin. -/
structure Partitions (m a : Automaton) : Prop where
  origin : ∀ q < m.size, ∃ S, m.origin? q = some S ∧ (∃ s, s ∈ S) ∧ ∀ s ∈ S, s < a.size
  cover : ∀ s < a.size, ∃ q, m.StandsFor q s
  disjoint : ∀ q q' s, m.StandsFor q s → m.StandsFor q' s → q = q'

/-- All states are in a block, and blocks live on as their members do. -/
theorem AllAlive.minimize (hw : a.WellFormed) (hd : a.isDeterministic = true) (hf : a.Forward)
    (h : a.AllAlive) (hm : a.minimize = .ok m) :
    m.WellFormed ∧ m.AllAlive ∧ m.Partitions a := by
  have hx := (isDeterministic_iff hf).1 hd
  have hlive : ∀ t < a.size, t ∈ a.live := fun t ht => h.mem_live hw ht
  obtain ⟨s, hs, halive⟩ := h
  obtain ⟨p, first, e, hp, hfirst, he, hm'⟩ := exists_minimize hw hd hf hs
  cases hm'.symm.trans hm
  have hwm : (a.ofBlocks p e).WellFormed := he.wellFormed
  have hprod : (a.ofBlocks p e).Productive 0 := by
    obtain ⟨w, hacc⟩ := (productive_iff hx).1 (halive s (hw.initial_lt s hs)).2
    rw [← acceptsFrom_ofBlocks hw hx hp he he.starts hfirst] at hacc
    exact productive_of_acceptsFrom hacc
  refine ⟨hwm, ?_, ?_⟩
  · refine ⟨0, rfl, fun q hq => ?_⟩
    have hkept := mem_kept_ofBlocks hw hx hp hs hfirst he hq
    obtain ⟨i, hi, hmoves⟩ := (mem_reachable hwm).1 (mem_reachable_of_mem_kept hwm hkept)
    cases hi
    exact ⟨hmoves, productive_of_mem_kept hwm rfl hprod hkept⟩
  · refine ⟨fun q hq => ?_, fun t ht => ?_, fun q q' t hq hq' => ?_⟩
    · obtain ⟨t, S, hS, ht⟩ := exists_member hp hfirst he hq
      exact ⟨S, hS, ⟨t, ht⟩, fun u hu =>
        lt_size_of_mem_kept hw (mem_kept_of_standsFor hp ⟨S, hS, hu⟩)⟩
    · have hkept : t ∈ a.kept := (mem_kept_iff hs).2 (.inr (hlive t ht))
      exact exists_standsFor hw hx hp hs hfirst he hkept
    · exact (standsFor_same_iff hw hx hp hq hq').2 fun w => rfl

end Automaton

/-! ## The result -/

namespace Compiler

open Automaton

/-- No stage of a compilation has a dead state, and the minimal automaton partitions the deterministic
one. -/
theorem stages_allAlive (c : Compiler) (text : List Char) (st : Stages) (h : c.stages text = .ok st) :
    (∀ a ∈ [st.nfa, st.dfa, st.minimal], a.hasDeadStates = false ∧ a.AllAlive) ∧
      st.minimal.Partitions st.dfa := by
  obtain ⟨hnfa, -, hminimal⟩ := stages_spec h
  obtain ⟨hw, hf, -⟩ := hnfa.spec
  have hdfa := hnfa.threaded.allAlive_determinize hw hf
  rw [← dfa_eq_of_stages h] at hdfa
  have hwd : st.dfa.WellFormed := dfa_eq_of_stages h ▸ wellFormed_determinize st.nfa
  have hdd : st.dfa.isDeterministic = true := dfa_eq_of_stages h ▸ isDeterministic_determinize st.nfa
  have hfd : st.dfa.Forward := dfa_eq_of_stages h ▸ forward_determinize st.nfa
  obtain ⟨hwm, hm, hpartitions⟩ := hdfa.minimize hwd hdd hfd hminimal
  refine ⟨fun a ha => ?_, hpartitions⟩
  simp only [List.mem_cons, List.not_mem_nil, or_false] at ha
  rcases ha with rfl | rfl | rfl
  · exact ⟨hnfa.threaded.allAlive.hasDeadStates hw, hnfa.threaded.allAlive⟩
  · exact ⟨hdfa.hasDeadStates hwd, hdfa⟩
  · exact ⟨hm.hasDeadStates hwm, hm⟩

/-- With these levels the star is for all of `ab|cb`: five sets are left, and two blocks of them. -/
theorem stages_allAlive_looseRepetition :
    ∃ st, ({ precedence := .looseRepetition, limit := some 5 } : Compiler).stages
        ['a', 'b', '|', 'c', 'b', '*'] = .ok st ∧ st.dfa.size = 5 ∧ st.minimal.size = 2 ∧
      (∀ a ∈ [st.nfa, st.dfa, st.minimal], a.hasDeadStates = false ∧ a.AllAlive) ∧
      st.minimal.Partitions st.dfa := by
  have hsizes : (({ precedence := .looseRepetition, limit := some 5 } : Compiler).stages
      ['a', 'b', '|', 'c', 'b', '*']).map (fun st => (st.dfa.size, st.minimal.size)) = .ok (5, 2) := by
    decide +kernel
  obtain ⟨st, h⟩ := exists_eq_ok_of_isOk
    (x := ({ precedence := .looseRepetition, limit := some 5 } : Compiler).stages
      ['a', 'b', '|', 'c', 'b', '*']) (by decide +kernel)
  rw [h] at hsizes
  obtain ⟨hdfa, hminimal⟩ := Prod.mk.inj (Except.ok.inj hsizes)
  exact ⟨st, h, hdfa, hminimal, stages_allAlive _ _ st h⟩

end Compiler

end PatternAutomata
