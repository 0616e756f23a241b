import PatternAutomata.Proofs.BreadthFirst
import PatternAutomata.Proofs.Determinize
import PatternAutomata.Proofs.InStep

/-!
# The form of a determinized automaton

Whatever the automaton and its labels are, the subset construction gives an automaton of one form
(`SubsetForm`): its states stand for closed sets, each for its own, and are numbered in the order in
which a breadth-first walk along ascending characters finds them; the labels out of a state are
intervals that lie apart, written in one way, and as few as their destinations allow:

    a.WellFormed → a.initial = some s → SubsetForm a a.determinize         (subsetForm_determinize)

The sets and their moves are those of `explored_determinize`; that the moves lie apart comes from the
sweep, and that they do not touch from the merging of its spans.
-/

namespace PatternAutomata

open Relation StrictTotal

/-! ## What is numbered is reached -/

namespace Exploration

variable {κ : Type} [StrictTotal κ] {f : κ → List (Label × κ)} {first : κ} {e : Exploration κ}
  {origin : κ → StateSet} {accepting : κ → Bool} {i : State} {k : κ}

theorem Explored.reaches (h : Explored f first e) (hk : e.met.keys[i]? = some k) :
    ReflTransGen (e.toAutomaton origin accepting).Moves 0 i := by
  have key : ∀ k, ReflTransGen (Leads f) first k →
      ∃ i : State, e.met.keys[i]? = some k ∧ ReflTransGen (e.toAutomaton origin accepting).Moves 0 i := by
    intro k hreach
    induction hreach with
    | refl => exact ⟨0, h.starts, .refl⟩
    | tail _ hleads ih =>
      obtain ⟨i, hi, hmoves⟩ := ih
      obtain ⟨⟨l, k'⟩, hm, rfl⟩ := hleads
      obtain ⟨j, hj⟩ := h.target_mem hi hm
      exact ⟨j, hj, hmoves.tail ⟨l, (h.mem_arrows hi).2 ⟨k', hj, hm⟩⟩⟩
  obtain ⟨j, hj, hmoves⟩ := key k (h.reached k (Array.mem_of_getElem? hk))
  rwa [Numbering.eq_of_getElem? hk hj]

end Exploration

namespace Automaton

variable {a : Automaton} {set : StateSet}

/-! ## The sets -/

/-- Whether a set holds members only, at least one, and all that empty moves reach from them. -/
structure ClosedSet (a : Automaton) (set : StateSet) : Prop where
  nonempty : ∃ s, s ∈ set
  lt_size : ∀ s ∈ set, s < a.size
  closed : ∀ s ∈ set, ∀ t, a.EmptyMove s t → t ∈ set

theorem closed_closure (hw : a.WellFormed) {seeds : List State} {s t : State}
    (hs : s ∈ a.closure seeds) (ht : a.EmptyMove s t) : t ∈ a.closure seeds := by
  obtain ⟨u, hu, hlt, hus⟩ := (mem_closure hw).1 hs
  exact (mem_closure hw).2 ⟨u, hu, hlt, hus.tail ht⟩

theorem closedSet_closure (hw : a.WellFormed) {seeds : List State} (h : ∃ s, s ∈ a.closure seeds) :
    ClosedSet a (a.closure seeds) :=
  ⟨h, fun _ hs => lt_of_mem_closure hs, fun _ hs _ ht => closed_closure hw hs ht⟩

theorem closedSet_of_reached (hw : a.WellFormed) {s : State} (hs : a.initial = some s)
    (h : ReflTransGen (Exploration.Leads a.subsetMoves) (a.closure [s]) set) : ClosedSet a set := by
  cases h with
  | refl => exact closedSet_closure hw (exists_mem_closure_initial hw hs)
  | tail _ hleads =>
    obtain ⟨m, hm, rfl⟩ := hleads
    obtain ⟨c, hc⟩ := (exclusive_subsetMoves a _).proper m.1 (List.mem_map_of_mem hm)
    obtain ⟨hne, hset⟩ := exists_mem_subsetMoves.1 ⟨m, hm, hc, rfl⟩
    rw [hset]
    exact closedSet_closure hw ((exists_mem_sweepStep_iff hw).2 hne)

/-! ## The labels -/

theorem merged_closedMoves (a : Automaton) (set : StateSet) :
    Span.Merged (Span.merge (a.closedMoves set)) := (separate_closedMoves a set).merged_merge

theorem subsetMoves_eq (a : Automaton) (set : StateSet) :
    a.subsetMoves set = (Span.merge (a.closedMoves set)).map fun m => (m.label, m.target) := rfl

theorem mergedRow_subsetMoves (a : Automaton) (set : StateSet) :
    Exploration.MergedRow (a.subsetMoves set) := ⟨_, merged_closedMoves a set, rfl⟩

/-- Whether the labels of some arrows are intervals that lie apart, each written as a symbol when it
holds one character, and none goes on where another to the same destination ends. -/
structure Intervals (rs : List Arrow) : Prop where
  bounds : ∀ r ∈ rs, ∃ lo hi, r.label.bounds? = some (lo, hi) ∧ lo.toNat ≤ hi.toNat ∧
    (r.label = .symbol lo ↔ lo = hi)
  apart : ∀ r ∈ rs, ∀ r' ∈ rs, r ≠ r' → r.label.Apart r'.label
  untouched : ∀ r ∈ rs, ∀ r' ∈ rs, r.dest = r'.dest → ∀ lo hi lo' hi',
    r.label.bounds? = some (lo, hi) → r'.label.bounds? = some (lo', hi') → Scalar.next? hi ≠ some lo'

/-- The arrows of a state are the merged spans of its set. -/
theorem intervals_of_explored {e : Exploration StateSet} {first : StateSet}
    (h : Exploration.Explored a.subsetMoves first e) (q : State) :
    Intervals ((a.ofSubsets e).arrows q) := by
  have hspan : ∀ r ∈ (a.ofSubsets e).arrows q, ∃ set m, e.met.keys[q]? = some set ∧
      m ∈ Span.merge (a.closedMoves set) ∧ e.met.keys[r.dest]? = some m.target ∧ m.label = r.label := by
    rintro ⟨l, t⟩ hr
    have hq : q < e.met.keys.size := by simpa [ofSubsets] using lt_size_of_mem_arrows hr
    have hk := Array.getElem?_eq_getElem hq
    obtain ⟨k', ht, hm⟩ := (h.mem_arrows hk).1 hr
    rw [subsetMoves_eq] at hm
    obtain ⟨m, hmem, hmove⟩ := List.mem_map.1 hm
    cases hmove
    exact ⟨_, m, hk, hmem, ht, rfl⟩
  have hexclusive : (a.ofSubsets e).ExclusiveAt q := h.exclusive (fun S _ => exclusive_subsetMoves a S) q
  refine ⟨fun r hr => ?_, fun r hr r' hr' hne => hexclusive.apart_of_ne hr hr' hne, ?_⟩
  · obtain ⟨set, m, -, hm, -, hlabel⟩ := hspan r hr
    rw [← hlabel]
    exact ⟨m.lo, m.hi, Label.bounds?_spanning _ _, (merged_closedMoves a set).lo_le_hi m hm,
      Span.label_eq_symbol_iff m⟩
  · intro r hr r' hr' hdest lo hi lo' hi' hb hb'
    obtain ⟨set, m, hset, hm, ht, hlabel⟩ := hspan r hr
    obtain ⟨set', m', hset', hm', ht', hlabel'⟩ := hspan r' hr'
    cases hset.symm.trans hset'
    rw [← hlabel, Span.label, Label.bounds?_spanning] at hb
    rw [← hlabel', Span.label, Label.bounds?_spanning] at hb'
    cases hb
    cases hb'
    rw [hdest] at ht
    exact (merged_closedMoves a set).next?_ne hm hm' (Option.some.inj (ht.symm.trans ht'))

/-! ## The whole -/

/-- The form of the automata that the subset construction makes from `a`. -/
structure SubsetForm (a d : Automaton) : Prop where
  deterministic : d.isDeterministic = true
  initial : d.initial = some 0
  origin : ∀ q < d.size, ∃ set, d.origin? q = some set ∧ ClosedSet a set
  origin_inj : ∀ q < d.size, ∀ r < d.size, d.origin? q = d.origin? r → q = r
  reachable : ∀ q < d.size, ReflTransGen d.Moves 0 q
  name : ∀ q < d.size, d.name q = defaultName q
  numbered : breadthFirst d.orderedSuccessors d.size [0] [0] = d.states
  intervals : ∀ q, Intervals (d.arrows q)

/-- Every determinized automaton has this form, whatever the labels of the original are. -/
theorem subsetForm_determinize (hw : a.WellFormed) {s : State} (hs : a.initial = some s) :
    SubsetForm a a.determinize := by
  have hdeterministic := isDeterministic_determinize a
  have hinitial := initial_determinize hs
  obtain ⟨e, h, he⟩ := explored_determinize hs
  rw [he] at hdeterministic hinitial ⊢
  have hkey : ∀ q < (a.ofSubsets e).size, ∃ set, e.met.keys[q]? = some set := by
    intro q hq
    rw [ofSubsets, Exploration.size_toAutomaton] at hq
    exact ⟨_, Array.getElem?_eq_getElem hq⟩
  have horigin : ∀ {q : State} {set : StateSet}, e.met.keys[q]? = some set →
      (a.ofSubsets e).origin? q = some set := Exploration.origin?_toAutomaton
  refine ⟨hdeterministic, hinitial, fun q hq => ?_, fun q hq r hr heq => ?_, fun q hq => ?_,
    fun q hq => Exploration.name_toAutomaton hq, ?_, intervals_of_explored h⟩
  · obtain ⟨set, hk⟩ := hkey q hq
    exact ⟨set, horigin hk, closedSet_of_reached hw hs (h.reached set (Array.mem_of_getElem? hk))⟩
  · obtain ⟨set, hk⟩ := hkey q hq
    obtain ⟨set', hk'⟩ := hkey r hr
    rw [horigin hk, horigin hk'] at heq
    cases heq
    exact Numbering.eq_of_getElem? hk hk'
  · obtain ⟨set, hk⟩ := hkey q hq
    exact h.reaches hk
  · have hsucc : (a.ofSubsets e).orderedSuccessors = e.rowTargets :=
      h.orderedSuccessors_eq (fun k => (merged_closedMoves a k).toSeparate) (subsetMoves_eq a)
    rw [hsucc, states, ofSubsets, Exploration.size_toAutomaton]
    exact h.breadthFirst_eq

/-- Labels that touch across the surrogates, one that runs downwards and an empty move. -/
def touching : Automaton where
  nodes := #[
    { name := "S0", arrows := .ofList [⟨.range 'a' '\uD7FF', 1⟩, ⟨.range '\uE000' '\uFFFD', 1⟩,
        ⟨.range 'z' 'b', 0⟩, ⟨.epsilon, 1⟩] },
    { name := "S1", accepting := true, arrows := .ofList [⟨.symbol 'q', 0⟩] }]
  initial := some 0

theorem subsetForm_determinize_touching :
    touching.WellFormed ∧ touching.initial = some 0 ∧ Scalar.next? '\uD7FF' = some '\uE000' ∧
      SubsetForm touching touching.determinize :=
  have hw : touching.WellFormed := by decide
  ⟨hw, rfl, by decide, subsetForm_determinize hw rfl⟩

end Automaton

end PatternAutomata
