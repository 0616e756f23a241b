import PatternAutomata.Proofs.Choice
import PatternAutomata.Proofs.Path

/-!
# Without choices a simulation is a run

Where no state leaves a choice, at most one arrow can be followed over a character, and there are no
empty moves to be closed under.  A set of at most one state is then led to a set of at most one state,
by the step that a run takes (`stepSet_eq_step`):

    a.NoChoice → a.runSet {s} w = {t} when a.runFrom s w = some t, and ∅ when it breaks off
                                                                          (runSet_eq_runFrom)

The test for determinism passes only automata without choices, whatever their labels are, so on these a
text can be followed one state at a time.
-/

namespace PatternAutomata.Automaton

variable {a : Automaton} {s t : State} {c : Char}

/-! ## Steps without choices -/

theorem NoChoice.of_isDeterministic (hd : a.isDeterministic = true) : a.NoChoice :=
  fun s => (isDeterministicAt_iff_noChoiceAt.1 (isDeterministicAt_of_isDeterministic hd s)).1

theorem NoChoice.not_emptyMove (h : a.NoChoice) (s t : State) : ¬ a.EmptyMove s t :=
  fun hst => (h s).noEmptyMove _ hst rfl

/-- Arrows that admit one character have one label, and so one destination. -/
theorem NoChoiceAt.step_eq_some (h : a.NoChoiceAt s) {l : Label} (hl : (⟨l, t⟩ : Arrow) ∈ a.arrows s)
    (hc : l.admits c = true) : a.step s c = some t := by
  refine step_eq_some_of_forall hl hc fun r hr hrc => ?_
  have hlabel : r.label = l := h.oneLabel r hr ⟨l, t⟩ hl c hrc hc
  exact h.oneDest r hr ⟨l, t⟩ hl hlabel

/-! ## Sets of at most one state -/

/-- The set of the state, if there is one. -/
def atMost (o : Option State) : StateSet := OrderedSet.ofList o.toList

theorem mem_atMost {o : Option State} : t ∈ atMost o ↔ o = some t := by
  rw [atMost, OrderedSet.mem_ofList, Option.mem_toList]

section WellFormed

variable (hw : a.WellFormed)
include hw

section NoChoice

variable (h : a.NoChoice)
include h

theorem closure_eq_atMost (hs : s < a.size) : a.closure [s] = atMost (some s) := by
  have hseeds : ∀ t ∈ [s], t < a.size := by simpa using hs
  refine OrderedSet.ext fun t => ?_
  rw [mem_closure_of_not_emptyMove hw h.not_emptyMove hseeds, mem_atMost, List.mem_singleton,
    Option.some.injEq, eq_comm]

/-- A set of at most one state is led on by the step. -/
theorem stepSet_eq_step (o : Option State) (c : Char) :
    a.stepSet (atMost o) c = atMost (o.bind fun s => a.step s c) := by
  have hmove : ∀ t ∈ a.move (atMost o) c, t < a.size := by
    intro t ht
    obtain ⟨s, -, l, hl, -⟩ := mem_move.1 ht
    exact hw.dest_lt s _ hl
  refine OrderedSet.ext fun t => ?_
  rw [stepSet, mem_closure_of_not_emptyMove hw h.not_emptyMove hmove, mem_move, mem_atMost,
    Option.bind_eq_some_iff]
  refine exists_congr fun s => ?_
  rw [mem_atMost]
  refine and_congr_right fun _ => ⟨?_, mem_arrows_of_step⟩
  rintro ⟨l, hl, hc⟩
  exact (h s).step_eq_some hl hc

/-- The simulation from at most one state keeps to the run from it. -/
theorem runSet_eq_runFrom (o : Option State) (w : List Char) :
    a.runSet (atMost o) w = atMost (o.bind fun s => a.runFrom s w) := by
  induction w generalizing o with
  | nil => cases o <;> rfl
  | cons c w ih =>
    have hrun : (o.bind fun s => a.runFrom s (c :: w)) =
        (o.bind fun s => a.step s c).bind fun t => a.runFrom t w := by
      cases o <;> rfl
    rw [hrun, ← ih, ← stepSet_eq_step hw h]
    rfl

end NoChoice

/-- On an automaton that passes the test for determinism, the simulation ends in the set of the one
state in which the run ends, and in the empty set when the run breaks off.  So both accept the same
texts. -/
theorem simulate_follows_run (hd : a.isDeterministic = true) (hs : a.initial = some s)
    (w : List Char) :
    (∀ t, a.run w = some t → a.simulate w = some (OrderedSet.ofList [t])) ∧
      (a.run w = none → a.simulate w = some OrderedSet.empty) ∧
      a.acceptsByAnyPath w = a.accepts w := by
  have hchoice := NoChoice.of_isDeterministic hd
  have hsim : a.simulate w = some (atMost (a.run w)) := by
    rw [simulate, hs, Option.map_some, closure_eq_atMost hw hchoice (hw.initial_lt s hs),
      runSet_eq_runFrom hw hchoice, run, hs]
  refine ⟨fun t ht => ?_, fun hnone => ?_, ?_⟩
  · rw [hsim, ht]
    rfl
  · rw [hsim, hnone]
    rfl
  · unfold acceptsByAnyPath accepts
    rw [hsim]
    dsimp only
    rw [Bool.eq_iff_iff, mem_acceptsSet]
    simp only [mem_atMost]
    cases a.run w <;> simp

end WellFormed

/-- Ranges that run downwards, beside a label, at its beginning and behind it, and an end without
arrows. -/
def idle : Automaton where
  nodes := #[
    { name := "S0", arrows := .ofList [⟨.range 'f' 'c', 1⟩, ⟨.range 'f' 'm', 1⟩, ⟨.symbol 'x', 0⟩] },
    { name := "S1", accepting := true, arrows := .ofList [⟨.range 'z' 'y', 0⟩] }]
  initial := some 0

theorem simulate_follows_run_idle :
    idle.WellFormed ∧ idle.isDeterministic = true ∧ idle.initial = some 0 ∧
      idle.run ['x', 'g'] = some 1 ∧ idle.simulate ['x', 'g'] = some (OrderedSet.ofList [1]) ∧
      idle.run ['x', 'e'] = none ∧ idle.simulate ['x', 'e'] = some OrderedSet.empty ∧
      idle.acceptsByAnyPath ['x', 'g'] = idle.accepts ['x', 'g'] :=
  have hw : idle.WellFormed := by decide
  have hd : idle.isDeterministic = true := by decide
  have hg : idle.run ['x', 'g'] = some 1 := by decide
  have he : idle.run ['x', 'e'] = none := by decide
  have h := simulate_follows_run hw hd rfl ['x', 'g']
  ⟨hw, hd, rfl, hg, h.1 1 hg, he, (simulate_follows_run hw hd rfl ['x', 'e']).2.1 he, h.2.2⟩

end PatternAutomata.Automaton
