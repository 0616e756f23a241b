import Mathlib.Data.Finset.Powerset
import PatternAutomata.Automaton.Determinize
import PatternAutomata.Proofs.Exploration
import PatternAutomata.Proofs.Path
import PatternAutomata.Proofs.Sweep

/-!
# The subset construction follows the simulation

The labels out of a set of states lead to the closures of the targets that the sweep holds open,
`sweepStep` (`exists_mem_subsetMoves`).  All sets that are met hold members only, so `subsetCount`
looks are enough (`explored_determinize`), and a run of the result passes the sets of the sweep up to
the first that is empty, whatever the labels are:

    a.determinize.run w = some q ↔ q stands for a.sweepSet (a.closure [s]) w, and this set has a
                                   member                                (runFrom_ofSubsets)

When no label runs downwards, the open targets are those of the labels that admit the character, and
`sweepSet` is the set of the simulation (`sweepSet_eq_runSet`).
-/

namespace PatternAutomata.Automaton

open Relation StrictTotal

variable {a : Automaton} {set : StateSet} {c : Char}

/-! ## The labels out of a set -/

theorem mem_spans {lo hi : Char} {t : State} :
    (⟨lo, hi, t⟩ : Span State) ∈ a.spans set ↔
      ∃ s ∈ set, ∃ l, (⟨l, t⟩ : Arrow) ∈ a.arrows s ∧ l.bounds? = some (lo, hi) := by
  unfold spans
  rw [List.mem_flatMap]
  refine exists_congr fun s => and_congr_right fun _ => ?_
  rw [List.mem_filterMap]
  constructor
  · rintro ⟨⟨l, _⟩, hr, h⟩
    obtain ⟨⟨_, _⟩, hb, e⟩ := Option.map_eq_some_iff.1 h
    cases e
    exact ⟨l, hr, hb⟩
  · rintro ⟨l, hr, hb⟩
    exact ⟨_, hr, by rw [hb]; rfl⟩

/-- The closure of the targets that the sweep over a set holds open at a character. -/
def sweepStep (a : Automaton) (set : StateSet) (c : Char) : StateSet :=
  a.closure (Span.openAt (a.spans set) c)

/-- The set that a text leads to from a set by sweeps. -/
def sweepSet (a : Automaton) (set : StateSet) (w : List Char) : StateSet := w.foldl a.sweepStep set

theorem closure_openAt :
    a.closure (OrderedSet.ofList (Span.openAt (a.spans set) c)).toList = a.sweepStep set c := by
  refine closure_congr fun t => ?_
  rw [OrderedSet.mem_toList, OrderedSet.mem_ofList]

/-- The spans out of a set with the closed sets that they lead to. -/
def closedMoves (a : Automaton) (set : StateSet) : List (Span StateSet) :=
  (a.disjointMoves set).map fun m => m.map fun t => a.closure t.toList

theorem separate_closedMoves (a : Automaton) (set : StateSet) :
    Span.Separate (a.closedMoves set) :=
  Span.separate_sweep.map _ (fun _ => rfl) fun _ => rfl

theorem exists_mem_closedMoves {S : StateSet} :
    (∃ m ∈ a.closedMoves set, m.covers c = true ∧ m.target = S) ↔
      Span.openAt (a.spans set) c ≠ [] ∧ S = a.sweepStep set c := by
  have h : ∀ T, _ ↔ _ := fun T => @Span.exists_mem_sweep (a.spans set) c T
  unfold closedMoves disjointMoves
  rw [← closure_openAt]
  constructor
  · rintro ⟨_, hm', hc, rfl⟩
    obtain ⟨m, hm, rfl⟩ := List.mem_map.1 hm'
    obtain ⟨hne, e⟩ := (h m.target).1 ⟨m, hm, hc, rfl⟩
    exact ⟨hne, by rw [← e]; rfl⟩
  · rintro ⟨hne, rfl⟩
    obtain ⟨m, hm, hc, e⟩ := (h _).2 ⟨hne, rfl⟩
    exact ⟨_, List.mem_map_of_mem hm, hc, by rw [← e]; rfl⟩

theorem exclusive_subsetMoves (a : Automaton) (set : StateSet) :
    Label.Exclusive ((a.subsetMoves set).map Prod.fst) := by
  rw [subsetMoves, List.map_map]
  exact (separate_closedMoves a set).merge.exclusive

theorem exists_mem_subsetMoves {S : StateSet} :
    (∃ m ∈ a.subsetMoves set, m.1.admits c = true ∧ m.2 = S) ↔
      Span.openAt (a.spans set) c ≠ [] ∧ S = a.sweepStep set c := by
  rw [← exists_mem_closedMoves, ← Span.exists_mem_merge (separate_closedMoves a set)]
  constructor
  · rintro ⟨_, hm', hc, rfl⟩
    obtain ⟨m, hm, rfl⟩ := List.mem_map.1 hm'
    exact ⟨m, hm, by rwa [← Span.admits_label], rfl⟩
  · rintro ⟨m, hm, hc, rfl⟩
    exact ⟨_, List.mem_map_of_mem hm, by rwa [Span.admits_label], rfl⟩

theorem leads_subsetMoves {S : StateSet} (h : Exploration.Leads a.subsetMoves set S) :
    ∃ c, S = a.sweepStep set c := by
  obtain ⟨m, hm, rfl⟩ := h
  obtain ⟨c, hc⟩ := (exclusive_subsetMoves a set).proper m.1 (List.mem_map_of_mem hm)
  exact ⟨c, (exists_mem_subsetMoves.1 ⟨m, hm, hc, rfl⟩).2⟩

/-! ## All sets are met -/

/-- There are `2 ^ n` sets of states below `n`. -/
theorem length_le_two_pow {n : Nat} {l : List StateSet} (hl : l.Nodup)
    (h : ∀ S ∈ l, ∀ s ∈ S, s < n) : l.length ≤ 2 ^ n := by
  have hinj : Set.InjOn (fun S : StateSet => S.toList.toFinset) {S | S ∈ l} := by
    intro S _ T _ e
    refine OrderedSet.ext fun s => ?_
    have := Finset.ext_iff.1 e s
    simpa using this
  calc l.length = (l.map fun S => S.toList.toFinset).toFinset.card := by
        rw [List.toFinset_card_of_nodup (hl.map_on fun S hS T hT e => hinj hS hT e), List.length_map]
    _ ≤ (Finset.range n).powerset.card := by
        refine Finset.card_le_card fun x hx => ?_
        obtain ⟨S, hS, rfl⟩ := List.mem_map.1 (List.mem_toFinset.1 hx)
        rw [Finset.mem_powerset]
        intro s hs
        exact Finset.mem_range.2 (h S hS s (List.mem_toFinset.1 hs))
    _ = 2 ^ n := by rw [Finset.card_powerset, Finset.card_range]

theorem lt_of_reached {seeds : List State} {S : StateSet}
    (h : ReflTransGen (Exploration.Leads a.subsetMoves) (a.closure seeds) S) :
    ∀ s ∈ S, s < a.size := by
  cases h with
  | refl => exact fun s hs => lt_of_mem_closure hs
  | tail _ h =>
    obtain ⟨c, rfl⟩ := leads_subsetMoves h
    exact fun s hs => lt_of_mem_closure hs

theorem size_keys_le {seeds : List State} (e : Exploration StateSet)
    (h : Exploration.Holds a.subsetMoves (a.closure seeds) e) : e.met.keys.size ≤ a.subsetCount := by
  rw [← Array.length_toList]
  refine length_le_two_pow e.met.nodup_keys fun S hS => ?_
  exact lt_of_reached (h.reached S (Array.mem_toList_iff.1 hS))

theorem explore_subsetMoves (a : Automaton) (s : State) :
    Exploration.explore (fun _ S => (.ok ((), a.subsetMoves S) : Except Empty _)) a.subsetCount ()
        (a.closure [s]) =
      .ok ((Exploration.doNext a.subsetMoves)^[a.subsetCount]
        (Exploration.start (a.closure [s]))) :=
  Exploration.explore_unfailing a.subsetCount

/-- As many steps as there are sets of states do all sets that are met. -/
theorem explored_iterate (a : Automaton) (s : State) :
    Exploration.Explored a.subsetMoves (a.closure [s])
      ((Exploration.doNext a.subsetMoves)^[a.subsetCount]
        (Exploration.start (a.closure [s]))) :=
  Exploration.explored_iterate size_keys_le

theorem explored_determinize {s : State} (hs : a.initial = some s) :
    ∃ e, Exploration.Explored a.subsetMoves (a.closure [s]) e ∧ a.determinize = a.ofSubsets e := by
  refine ⟨_, explored_iterate a s, ?_⟩
  unfold determinize exploreSubsets
  simp only [hs, explore_subsetMoves, Except.map]

/-! ## Runs -/

theorem lt_of_mem_openAt (hw : a.WellFormed) {t : State}
    (h : t ∈ Span.openAt (a.spans set) c) : t < a.size := by
  obtain ⟨⟨lo, hi, _⟩, hm, rfl⟩ := List.mem_map.1 h
  obtain ⟨s, -, l, hr, -⟩ := mem_spans.1 (List.mem_of_mem_filter hm)
  exact hw.dest_lt s _ hr

theorem exists_mem_sweepStep_iff (hw : a.WellFormed) :
    (∃ s, s ∈ a.sweepStep set c) ↔ Span.openAt (a.spans set) c ≠ [] := by
  constructor
  · rintro ⟨s, hs⟩ e
    obtain ⟨t, ht, -⟩ := (mem_closure hw).1 hs
    rw [e] at ht
    cases ht
  · intro hne
    obtain ⟨t, ht⟩ := List.exists_mem_of_ne_nil _ hne
    exact ⟨t, mem_closure_of_mem hw ht (lt_of_mem_openAt hw ht)⟩

/-- From the empty set sweeps reach the empty set only. -/
theorem exists_mem_of_mem_sweepSet (hw : a.WellFormed) {w : List Char} {set : StateSet} {t : State}
    (h : t ∈ a.sweepSet set w) : ∃ s, s ∈ set := by
  induction w generalizing set with
  | nil => exact ⟨t, h⟩
  | cons c w ih =>
    obtain ⟨u, hu⟩ := List.exists_mem_of_ne_nil _ ((exists_mem_sweepStep_iff hw).1 (ih h))
    obtain ⟨⟨lo, hi, _⟩, hm, -⟩ := List.mem_map.1 hu
    obtain ⟨s, hs, -⟩ := mem_spans.1 (List.mem_of_mem_filter hm)
    exact ⟨s, hs⟩

variable {e : Exploration StateSet} {first : StateSet} {i j : State}

theorem step_ofSubsets (h : Exploration.Explored a.subsetMoves first e)
    (hi : e.met.keys[i]? = some set) :
    (a.ofSubsets e).step i c = some j ↔
      Span.openAt (a.spans set) c ≠ [] ∧ e.met.keys[j]? = some (a.sweepStep set c) := by
  rw [ofSubsets, h.step (fun S _ => exclusive_subsetMoves a S) hi]
  constructor
  · rintro ⟨m, hm, hc, hj⟩
    obtain ⟨hne, e⟩ := exists_mem_subsetMoves.1 ⟨m, hm, hc, rfl⟩
    exact ⟨hne, e ▸ hj⟩
  · rintro ⟨hne, hj⟩
    obtain ⟨m, hm, hc, e⟩ := exists_mem_subsetMoves.2 ⟨hne, rfl⟩
    exact ⟨m, hm, hc, e ▸ hj⟩

theorem exists_key_sweepStep (hw : a.WellFormed) (h : Exploration.Explored a.subsetMoves first e)
    (hi : e.met.keys[i]? = some set) (hs : ∃ s, s ∈ a.sweepStep set c) :
    ∃ j : State, e.met.keys[j]? = some (a.sweepStep set c) := by
  obtain ⟨m, hm, -, hS⟩ := exists_mem_subsetMoves.2 ⟨(exists_mem_sweepStep_iff hw).1 hs, rfl⟩
  exact hS ▸ h.target_mem hi hm

/-- The sets of the sweeps are met, as long as they have a member. -/
theorem exists_key_sweepSet (hw : a.WellFormed) (h : Exploration.Explored a.subsetMoves first e)
    (hi : e.met.keys[i]? = some set) {w : List Char} (hs : ∃ s, s ∈ a.sweepSet set w) :
    ∃ j : State, e.met.keys[j]? = some (a.sweepSet set w) := by
  induction w generalizing i set with
  | nil => exact ⟨i, hi⟩
  | cons c w ih =>
    rw [sweepSet, List.foldl_cons, ← sweepSet] at hs ⊢
    obtain ⟨s, hs'⟩ := hs
    obtain ⟨k, hk⟩ := exists_key_sweepStep hw h hi (exists_mem_of_mem_sweepSet hw hs')
    exact ih hk ⟨s, hs'⟩

/-- A run passes the sets of the sweeps, up to the first that is empty. -/
theorem runFrom_ofSubsets (hw : a.WellFormed) (h : Exploration.Explored a.subsetMoves first e)
    {w : List Char} (hs : ∃ s, s ∈ set) (hi : e.met.keys[i]? = some set) :
    (a.ofSubsets e).runFrom i w = some j ↔
      (∃ s, s ∈ a.sweepSet set w) ∧ e.met.keys[j]? = some (a.sweepSet set w) := by
  induction w generalizing i set with
  | nil =>
    rw [runFrom, Option.some.injEq]
    constructor
    · rintro rfl
      exact ⟨hs, hi⟩
    · rintro ⟨-, hj⟩
      exact Numbering.eq_of_getElem? hi hj
  | cons c w ih =>
    rw [runFrom, Option.bind_eq_some_iff, sweepSet, List.foldl_cons, ← sweepSet]
    simp only [step_ofSubsets h hi, ← exists_mem_sweepStep_iff hw]
    constructor
    · rintro ⟨k, ⟨hne, hk⟩, hr⟩
      exact (ih hne hk).1 hr
    · rintro ⟨⟨s, hs⟩, hj⟩
      have hne := exists_mem_of_mem_sweepSet hw hs
      obtain ⟨k, hk⟩ := exists_key_sweepStep hw h hi hne
      exact ⟨k, ⟨hne, hk⟩, (ih hne hk).2 ⟨⟨s, hs⟩, hj⟩⟩

theorem exists_mem_closure_initial (hw : a.WellFormed) {s : State} (hs : a.initial = some s) :
    ∃ t, t ∈ a.closure [s] :=
  ⟨s, mem_closure_of_mem hw (List.mem_singleton.2 rfl) (hw.initial_lt s hs)⟩

/-- The states of the result are numbers of sets, and a run ends in the number of the set of the
sweeps, unless this set is empty. -/
theorem exists_run_ofSubsets (hw : a.WellFormed) {s : State} (hs : a.initial = some s) :
    ∃ e, Exploration.Explored a.subsetMoves (a.closure [s]) e ∧ a.determinize = a.ofSubsets e ∧
      ∀ w q, a.determinize.run w = some q ↔ (∃ t, t ∈ a.sweepSet (a.closure [s]) w) ∧
        e.met.keys[q]? = some (a.sweepSet (a.closure [s]) w) := by
  obtain ⟨e, h, he⟩ := explored_determinize hs
  refine ⟨e, h, he, fun w q => ?_⟩
  rw [he]
  exact runFrom_ofSubsets hw h (exists_mem_closure_initial hw hs) h.starts

/-- The result accepts what sweeps lead to an accepting state. -/
theorem accepts_determinize_eq_acceptsSet (hw : a.WellFormed) {s : State} (hs : a.initial = some s)
    (w : List Char) :
    a.determinize.accepts w = a.acceptsSet (a.sweepSet (a.closure [s]) w) := by
  obtain ⟨e, h, he, hrun⟩ := exists_run_ofSubsets hw hs
  unfold accepts
  cases hq : a.determinize.run w with
  | some q =>
    rw [he]
    exact Exploration.accepting_toAutomaton ((hrun w q).1 hq).2
  | none =>
    symm
    rw [← Bool.not_eq_true, mem_acceptsSet]
    rintro ⟨t, ht, -⟩
    obtain ⟨q, hk⟩ := exists_key_sweepSet hw h h.starts ⟨t, ht⟩
    rw [(hrun w q).2 ⟨⟨t, ht⟩, hk⟩] at hq
    cases hq

/-! ## Labels that run upwards -/

section Forward

variable (hf : a.Forward)

include hf

theorem Forward.lo_le_hi : ∀ m ∈ a.spans set, m.lo.toNat ≤ m.hi.toNat := by
  rintro ⟨lo, hi, t⟩ hm
  obtain ⟨s, -, l, hr, hb⟩ := mem_spans.1 hm
  exact hf s _ hr lo hi hb

theorem mem_openAt_spans {t : State} :
    t ∈ Span.openAt (a.spans set) c ↔ t ∈ a.move set c := by
  rw [Span.mem_openAt_iff_covers hf.lo_le_hi, mem_move]
  constructor
  · rintro ⟨⟨lo, hi, _⟩, hm, hc, rfl⟩
    obtain ⟨s, hs, l, hr, hb⟩ := mem_spans.1 hm
    exact ⟨s, hs, l, hr, (Label.admits_iff_of_bounds? hb).2 (Span.covers_iff.1 hc)⟩
  · rintro ⟨s, hs, l, hr, hc⟩
    obtain ⟨lo, hi, hb, h⟩ := Label.admits_iff.1 hc
    exact ⟨⟨lo, hi, t⟩, mem_spans.2 ⟨s, hs, l, hr, hb⟩, Span.covers_iff.2 h, rfl⟩

theorem sweepSet_eq_runSet (set : StateSet) (w : List Char) : a.sweepSet set w = a.runSet set w := by
  have h : a.sweepStep = a.stepSet := by
    funext set c
    exact closure_congr fun t => mem_openAt_spans hf
  rw [sweepSet, h, runSet]

end Forward

/-- The sets of the simulation are met, as long as they have a member. -/
theorem exists_key_runSet (hw : a.WellFormed) (hf : a.Forward)
    (h : Exploration.Explored a.subsetMoves first e) (hi : e.met.keys[i]? = some set)
    {w : List Char} (hs : ∃ s, s ∈ a.runSet set w) :
    ∃ j : State, e.met.keys[j]? = some (a.runSet set w) := by
  rw [← sweepSet_eq_runSet hf] at hs ⊢
  exact exists_key_sweepSet hw h hi hs

/-! ## The simulation and the run -/

theorem simulate_eq {s : State} (hs : a.initial = some s) (w : List Char) :
    a.simulate w = some (a.runSet (a.closure [s]) w) := by
  rw [simulate, hs]
  rfl

theorem acceptsByAnyPath_eq_acceptsSet {s : State} (hs : a.initial = some s) (w : List Char) :
    a.acceptsByAnyPath w = a.acceptsSet (a.runSet (a.closure [s]) w) := by
  rw [acceptsByAnyPath, simulate_eq hs]

/-- The states of the result are numbers of sets, and a run ends in the number of the set of the
simulation, unless this set is empty. -/
theorem exists_run_determinize (hw : a.WellFormed) (hf : a.Forward) {s : State}
    (hs : a.initial = some s) :
    ∃ e, Exploration.Explored a.subsetMoves (a.closure [s]) e ∧ a.determinize = a.ofSubsets e ∧
      ∀ w q, a.determinize.run w = some q ↔ (∃ t, t ∈ a.runSet (a.closure [s]) w) ∧
        e.met.keys[q]? = some (a.runSet (a.closure [s]) w) := by
  simpa only [sweepSet_eq_runSet hf] using exists_run_ofSubsets hw hs

theorem accepts_determinize (hw : a.WellFormed) (hf : a.Forward) {s : State}
    (hs : a.initial = some s) (w : List Char) :
    a.determinize.accepts w = a.acceptsByAnyPath w := by
  rw [accepts_determinize_eq_acceptsSet hw hs, sweepSet_eq_runSet hf,
    acceptsByAnyPath_eq_acceptsSet hs]

/-- A run of the result is defined as long as the simulation has a state, and then ends in the state
that stands for the set of the simulation and accepts when a member of this set does. -/
theorem determinize_follows_simulation (hw : a.WellFormed) (hf : a.Forward) {s : State}
    (hs : a.initial = some s) (w : List Char) :
    ∃ S, a.simulate w = some S ∧ (∀ t, t ∈ S ↔ a.Path s w t) ∧
      ((∃ q, a.determinize.run w = some q) ↔ ∃ t, t ∈ S) ∧
      ∀ q, a.determinize.run w = some q → a.determinize.origin? q = some S ∧
        (a.determinize.accepting q = true ↔ ∃ t ∈ S, a.accepting t = true) := by
  obtain ⟨e, h, he, hrun⟩ := exists_run_determinize hw hf hs
  refine ⟨_, simulate_eq hs w, fun t => ?_, ⟨?_, fun ht => ?_⟩, fun q hq => ?_⟩
  · rw [mem_runSet_closure hw]
    simp [hw.initial_lt s hs]
  · rintro ⟨q, hq⟩
    exact ((hrun w q).1 hq).1
  · obtain ⟨q, hk⟩ := exists_key_runSet hw hf h h.starts ht
    exact ⟨q, (hrun w q).2 ⟨ht, hk⟩⟩
  · have hk := ((hrun w q).1 hq).2
    rw [he]
    refine ⟨Exploration.origin?_toAutomaton hk, ?_⟩
    rw [← mem_acceptsSet]
    exact Bool.eq_iff_iff.1 (Exploration.accepting_toAutomaton hk)

/-- Two labels that overlap, an empty move and one label with two destinations. -/
def overlapping : Automaton where
  nodes := #[
    { name := "S0", arrows := .ofList [⟨.range 'a' 'm', 0⟩, ⟨.range 'f' 'z', 1⟩, ⟨.epsilon, 2⟩] },
    { name := "S1", accepting := true, arrows := .ofList [⟨.symbol 'a', 0⟩, ⟨.symbol 'a', 2⟩] },
    { name := "S2", arrows := .ofList [⟨.epsilon, 0⟩] }]
  initial := some 0

theorem determinize_follows_simulation_overlapping :
    overlapping.WellFormed ∧ overlapping.Forward ∧ overlapping.initial = some 0 ∧
      ∃ S, overlapping.simulate ['a', 'g'] = some S ∧
        (∀ t, t ∈ S ↔ overlapping.Path 0 ['a', 'g'] t) ∧
        ((∃ q, overlapping.determinize.run ['a', 'g'] = some q) ↔ ∃ t, t ∈ S) ∧
        ∀ q, overlapping.determinize.run ['a', 'g'] = some q →
          overlapping.determinize.origin? q = some S ∧
          (overlapping.determinize.accepting q = true ↔
            ∃ t ∈ S, overlapping.accepting t = true) :=
  have hw : overlapping.WellFormed := by decide
  have hf : overlapping.Forward := by decide
  ⟨hw, hf, rfl, determinize_follows_simulation hw hf rfl ['a', 'g']⟩

/-! ## What the result is -/

theorem determinize_of_initial_eq_none (h : a.initial = none) : a.determinize = empty := by
  unfold determinize exploreSubsets
  simp only [h]

theorem arrows_empty (s : State) : empty.arrows s = [] := arrows_of_le (Nat.zero_le s)

theorem wellFormed_determinize (a : Automaton) : a.determinize.WellFormed := by
  cases hs : a.initial with
  | none =>
    rw [determinize_of_initial_eq_none hs]
    exact ⟨by simp [arrows_empty], by simp [empty]⟩
  | some s =>
    obtain ⟨e, h, he⟩ := explored_determinize hs
    rw [he]
    exact h.wellFormed

theorem exclusive_determinize (a : Automaton) : a.determinize.Exclusive := by
  cases hs : a.initial with
  | none =>
    rw [determinize_of_initial_eq_none hs]
    exact fun s => exclusiveAt_of_le (Nat.zero_le s)
  | some s =>
    obtain ⟨e, h, he⟩ := explored_determinize hs
    rw [he]
    exact h.exclusive fun S _ => exclusive_subsetMoves a S

theorem forward_determinize (a : Automaton) : a.determinize.Forward :=
  forward_of_exclusive (exclusive_determinize a)

theorem isDeterministic_determinize (a : Automaton) : a.determinize.isDeterministic = true :=
  (isDeterministic_iff (forward_determinize a)).2 (exclusive_determinize a)

theorem initial_determinize {s : State} (hs : a.initial = some s) :
    a.determinize.initial = some 0 := by
  obtain ⟨e, -, he⟩ := explored_determinize hs
  rw [he]
  rfl

end PatternAutomata.Automaton
