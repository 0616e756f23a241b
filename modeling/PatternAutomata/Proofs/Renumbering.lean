import PatternAutomata.Proofs.Subsets
import PatternAutomata.Proofs.WorkLimit

/-!
# The subset construction does not see how states are numbered

An automaton `b` is `a` with its states renumbered by a permutation (`Renumbers σ a b`) when arrows,
acceptance and the initial state are carried along; names and origins may be any.  Closures, the spans
out of a set and what the sweep holds open are carried along as well, up to their order, so the image of
a set has the moves of the set, to the images of its targets (`Renumbers.rowsAlike_subsetMoves`).  Both
constructions then go in step:

    Renumbers σ a b → b.determinize = a.determinize with the images of its origins
                                                                    (determinize_renumbered)

An image has as many members as its set, so they also work alike, and a limit fails for both or for
neither.
-/

namespace PatternAutomata

open Relation Relator

/-! ## Images -/

theorem OrderedSet.toList_ofList_perm {α : Type} [StrictTotal α] {l : List α} (h : l.Nodup) :
    (ofList l).toList.Perm l :=
  (List.perm_ext_iff_of_nodup (nodup_toList _) h).2 fun _ => mem_ofList

/-- The states of a set with other numbers. -/
def StateSet.image (σ : State → State) (S : StateSet) : StateSet :=
  OrderedSet.ofList (S.toList.map σ)

theorem StateSet.mem_image {σ : State → State} {S : StateSet} {t : State} :
    t ∈ S.image σ ↔ ∃ s ∈ S, σ s = t := by
  rw [StateSet.image, OrderedSet.mem_ofList, List.mem_map]
  rfl

/-- The arrow to the same state with another number. -/
def Arrow.renumber (σ : State → State) (r : Arrow) : Arrow := ⟨r.label, σ r.dest⟩

/-- Whether the states below `n` are given each other's numbers. -/
structure Permutes (n : Nat) (σ : State → State) : Prop where
  maps : ∀ s < n, σ s < n
  inj : ∀ s < n, ∀ t < n, σ s = σ t → s = t

namespace Permutes

variable {n : Nat} {σ : State → State} {S T : StateSet} {s t : State}

theorem exists_eq (h : Permutes n σ) (ht : t < n) : ∃ s, s < n ∧ σ s = t := by
  have hmaps : Set.MapsTo σ (Finset.range n) (Finset.range n) := fun s hs =>
    Finset.mem_coe.2 (Finset.mem_range.2 (h.maps s (Finset.mem_range.1 hs)))
  have hinj : Set.InjOn σ (Finset.range n) := fun s hs t ht =>
    h.inj s (Finset.mem_range.1 hs) t (Finset.mem_range.1 ht)
  obtain ⟨s, hs, hst⟩ := Finset.surjOn_of_injOn_of_card_le σ hmaps hinj (Nat.le_refl _)
    (Finset.mem_coe.2 (Finset.mem_range.2 ht))
  exact ⟨s, Finset.mem_range.1 hs, hst⟩

theorem toList_image_perm (h : Permutes n σ) (hS : ∀ s ∈ S, s < n) :
    (S.image σ).toList.Perm (S.toList.map σ) :=
  OrderedSet.toList_ofList_perm <|
    (OrderedSet.nodup_toList S).map_on fun s hs t ht => h.inj s (hS s hs) t (hS t ht)

theorem size_image (h : Permutes n σ) (hS : ∀ s ∈ S, s < n) : (S.image σ).size = S.size := by
  unfold OrderedSet.size
  rw [(h.toList_image_perm hS).length_eq, List.length_map]

theorem mem_image_iff (h : Permutes n σ) (hS : ∀ s ∈ S, s < n) (ht : t < n) :
    σ t ∈ S.image σ ↔ t ∈ S := by
  rw [StateSet.mem_image]
  constructor
  · rintro ⟨s, hs, hst⟩
    rwa [← h.inj s (hS s hs) t ht hst]
  · exact fun ht => ⟨t, ht, rfl⟩

theorem eq_of_image_eq (h : Permutes n σ) (hS : ∀ s ∈ S, s < n) (hT : ∀ t ∈ T, t < n)
    (hST : S.image σ = T.image σ) : S = T := by
  refine OrderedSet.ext fun s => ⟨fun hs => ?_, fun hs => ?_⟩
  · rwa [← h.mem_image_iff hT (hS s hs), ← hST, h.mem_image_iff hS (hS s hs)]
  · rwa [← h.mem_image_iff hS (hT s hs), hST, h.mem_image_iff hT (hT s hs)]

end Permutes

/-- Whether a set is the image of a set of states below `n`. -/
def IsImage (n : Nat) (σ : State → State) (S S' : StateSet) : Prop :=
  (∀ s ∈ S, s < n) ∧ S' = S.image σ

theorem biUnique_isImage {n : Nat} {σ : State → State} (h : Permutes n σ) :
    BiUnique (IsImage n σ) := by
  constructor
  · rintro S T _ ⟨hS, rfl⟩ ⟨hT, hST⟩
    exact h.eq_of_image_eq hS hT hST
  · rintro S _ _ ⟨-, rfl⟩ ⟨-, rfl⟩
    rfl

/-! ## What the sweep holds open -/

namespace Span

variable {l l' : List (Span State)} {σ : State → State} {t : State} {q c : Char}

theorem begun_perm (h : l.Perm l') : begun l t q c = begun l' t q c := h.countP_eq _

theorem ended_perm (h : l.Perm l') : ended l t q c = ended l' t q c := h.countP_eq _

theorem openAt_perm (h : l.Perm l') (c : Char) : (openAt l c).Perm (openAt l' c) := by
  unfold openAt
  simp only [begun_perm h, ended_perm h]
  exact (h.filter _).map target

/-- Spans to `t` are counted alike when all targets are renumbered, and no other one becomes that of
`t`. -/
theorem countP_map_target {P : Char → Char → Prop} [∀ lo hi, Decidable (P lo hi)]
    (hinj : ∀ s ∈ l, σ s.target = σ t → s.target = t) :
    (l.map (Span.map σ)).countP (fun s => decide (s.target = σ t ∧ P s.lo s.hi)) =
      l.countP fun s => decide (s.target = t ∧ P s.lo s.hi) := by
  rw [List.countP_map]
  refine List.countP_congr fun s hs => ?_
  rw [Function.comp_apply, decide_eq_true_eq, decide_eq_true_eq]
  exact and_congr_left' ⟨hinj s hs, congrArg σ⟩

theorem openAt_map (hinj : ∀ s ∈ l, ∀ t ∈ l, σ s.target = σ t.target → s.target = t.target)
    (c : Char) : openAt (l.map (Span.map σ)) c = (openAt l c).map σ := by
  unfold openAt
  rw [List.filter_map, List.map_map, List.map_map]
  refine congrArg (List.map _) (List.filter_congr fun s hs => ?_)
  have hbegun : begun (l.map (Span.map σ)) (σ s.target) s.lo c = begun l s.target s.lo c :=
    countP_map_target (P := fun lo _ => s.lo.toNat ≤ lo.toNat ∧ lo.toNat ≤ c.toNat)
      fun u hu => hinj u hu s hs
  have hended : ended (l.map (Span.map σ)) (σ s.target) s.lo c = ended l s.target s.lo c :=
    countP_map_target (P := fun _ hi => s.lo.toNat ≤ hi.toNat ∧ hi.toNat < c.toNat)
      fun u hu => hinj u hu s hs
  rw [Function.comp_apply, decide_eq_decide, ← hbegun, ← hended]
  rfl

end Span

namespace Automaton

/-! ## Renumbered automata -/

/-- Whether `b` is `a` with the states renumbered by a permutation, whatever their names and origins
are. -/
structure Renumbers (σ : State → State) (a b : Automaton) : Prop extends Permutes a.size σ where
  size : b.size = a.size
  initial : b.initial = a.initial.map σ
  accepting : ∀ s < a.size, b.accepting (σ s) = a.accepting s
  arrows : ∀ s < a.size,
    b.arrows (σ s) = (OrderedSet.ofList ((a.arrows s).map (Arrow.renumber σ))).toList

/-- What the state with a new number was before. -/
def formerly (σ : State → State) (a : Automaton) (t : State) : State :=
  (a.states.find? fun s => decide (σ s = t)).getD t

/-- The node of a state, with its arrows to the new numbers. -/
def renumberNode (σ : State → State) (a : Automaton) (s : State) : Node where
  name := a.name s
  accepting := a.accepting s
  origin := a.origin? s
  arrows := OrderedSet.ofList ((a.arrows s).map (Arrow.renumber σ))

/-- An automaton with its states renumbered, which keep their names and origins. -/
def renumber (σ : State → State) (a : Automaton) : Automaton where
  nodes := (a.states.map fun t => a.renumberNode σ (a.formerly σ t)).toArray
  initial := a.initial.map σ

section Renumber

variable {σ : State → State} {a : Automaton} {s : State} (h : Permutes a.size σ) (hs : s < a.size)
include h hs

theorem formerly_eq : a.formerly σ (σ s) = s := by
  unfold formerly
  cases hfind : a.states.find? fun u => decide (σ u = σ s) with
  | none => simpa using List.find?_eq_none.1 hfind s (List.mem_range.2 hs)
  | some u =>
    have hu := List.mem_range.1 (List.mem_of_find?_eq_some hfind)
    have hus := List.find?_some hfind
    exact h.inj u hu s hs (of_decide_eq_true hus)

theorem getElem?_nodes_renumber : (a.renumber σ).nodes[σ s]? = some (a.renumberNode σ s) := by
  rw [renumber, List.getElem?_toArray, List.getElem?_map, states,
    List.getElem?_range (h.maps s hs), Option.map_some, formerly_eq h hs]

end Renumber

/-- Every permutation renumbers every automaton. -/
theorem renumbers_renumber {σ : State → State} {a : Automaton} (h : Permutes a.size σ) :
    Renumbers σ a (a.renumber σ) := by
  refine ⟨h, by simp [renumber, size, states], rfl, fun s hs => ?_, fun s hs => ?_⟩
  · rw [accepting, getElem?_nodes_renumber h hs]
    rfl
  · rw [arrows, getElem?_nodes_renumber h hs]
    rfl

namespace Renumbers

variable {σ : State → State} {a b : Automaton} {s t : State} {S : StateSet} {c : Char}

theorem mem_arrows (h : Renumbers σ a b) (hs : s < a.size) {r : Arrow} :
    r ∈ b.arrows (σ s) ↔ ∃ r' ∈ a.arrows s, r'.renumber σ = r := by
  rw [h.arrows s hs, OrderedSet.mem_toList, OrderedSet.mem_ofList, List.mem_map]

variable (hw : a.WellFormed) (h : Renumbers σ a b)
include hw h

theorem wellFormed : b.WellFormed := by
  constructor
  · intro t r hr
    have ht : t < a.size := h.size ▸ lt_size_of_mem_arrows hr
    obtain ⟨s, hs, rfl⟩ := h.exists_eq ht
    obtain ⟨r', hr', rfl⟩ := (h.mem_arrows hs).1 hr
    rw [h.size]
    exact h.maps _ (hw.dest_lt s r' hr')
  · intro t ht
    rw [h.initial, Option.map_eq_some_iff] at ht
    obtain ⟨s, hs, rfl⟩ := ht
    rw [h.size]
    exact h.maps s (hw.initial_lt s hs)

/-! ### Closures -/

omit hw in
theorem emptyMove_iff (hs : s < a.size) :
    b.EmptyMove (σ s) t ↔ ∃ u, a.EmptyMove s u ∧ σ u = t := by
  unfold EmptyMove
  rw [h.mem_arrows hs]
  constructor
  · rintro ⟨⟨l, u⟩, hr, e⟩
    cases e
    exact ⟨u, hr, rfl⟩
  · rintro ⟨u, hu, rfl⟩
    exact ⟨_, hu, rfl⟩

theorem emptyMoves_iff (hs : s < a.size) :
    ReflTransGen b.EmptyMove (σ s) t ↔ ∃ u, ReflTransGen a.EmptyMove s u ∧ σ u = t := by
  constructor
  · intro hst
    induction hst with
    | refl => exact ⟨s, .refl, rfl⟩
    | tail _ hmove ih =>
      obtain ⟨u, hu, rfl⟩ := ih
      have hlt : u < a.size := by
        cases hu with
        | refl => exact hs
        | tail _ hu => exact hw.lt_of_moves hu.moves
      obtain ⟨v, hv, rfl⟩ := (h.emptyMove_iff hlt).1 hmove
      exact ⟨v, hu.tail hv, rfl⟩
  · rintro ⟨u, hu, rfl⟩
    exact hu.lift σ fun u v huv =>
      (h.emptyMove_iff (lt_size_of_moves huv.moves)).2 ⟨v, huv, rfl⟩

theorem closure_map {seeds : List State} (hseeds : ∀ s ∈ seeds, s < a.size) :
    b.closure (seeds.map σ) = (a.closure seeds).image σ := by
  refine OrderedSet.ext fun t => ?_
  rw [mem_closure (h.wellFormed hw), StateSet.mem_image]
  constructor
  · rintro ⟨_, hmem, -, hst⟩
    obtain ⟨s, hs, rfl⟩ := List.mem_map.1 hmem
    obtain ⟨u, hu, rfl⟩ := (h.emptyMoves_iff hw (hseeds s hs)).1 hst
    exact ⟨u, (mem_closure hw).2 ⟨s, hs, hseeds s hs, hu⟩, rfl⟩
  · rintro ⟨u, hu, rfl⟩
    obtain ⟨s, hs, hlt, hsu⟩ := (mem_closure hw).1 hu
    exact ⟨σ s, List.mem_map_of_mem hs, h.size.symm ▸ h.maps s hlt,
      (h.emptyMoves_iff hw hlt).2 ⟨u, hsu, rfl⟩⟩

/-! ### Moves -/

theorem arrows_perm (hs : s < a.size) :
    (b.arrows (σ s)).Perm ((a.arrows s).map (Arrow.renumber σ)) := by
  rw [h.arrows s hs]
  refine OrderedSet.toList_ofList_perm (List.Nodup.map_on ?_ ((pairwise_arrows a s).imp StrictTotal.ne_of_lt))
  rintro ⟨l, t⟩ ht ⟨l', t'⟩ ht' e
  obtain ⟨rfl, hdest⟩ := Arrow.mk.inj e
  rw [h.inj t (hw.dest_lt s _ ht) t' (hw.dest_lt s _ ht') hdest]

theorem spans_perm (hS : ∀ s ∈ S, s < a.size) :
    (b.spans (S.image σ)).Perm ((a.spans S).map (Span.map σ)) := by
  unfold spans
  refine ((h.toList_image_perm hS).flatMap_right _).trans ?_
  rw [List.flatMap_map, List.map_flatMap]
  refine List.Perm.flatMap_left _ fun s hs => ?_
  refine ((h.arrows_perm hw (hS s hs)).filterMap _).trans (.of_eq ?_)
  rw [List.filterMap_map, List.map_filterMap]
  refine List.filterMap_congr fun r _ => ?_
  simp [Arrow.renumber, Span.map, Function.comp_def]

theorem openAt_perm (hS : ∀ s ∈ S, s < a.size) (c : Char) :
    (Span.openAt (b.spans (S.image σ)) c).Perm ((Span.openAt (a.spans S) c).map σ) := by
  refine (Span.openAt_perm (h.spans_perm hw hS) c).trans (.of_eq (Span.openAt_map ?_ c))
  rintro ⟨lo, hi, t⟩ ht ⟨lo', hi', t'⟩ ht' e
  obtain ⟨s, -, l, hr, -⟩ := mem_spans.1 ht
  obtain ⟨s', -, l', hr', -⟩ := mem_spans.1 ht'
  exact h.inj t (hw.dest_lt s _ hr) t' (hw.dest_lt s' _ hr') e

theorem openAt_ne_nil_iff (hS : ∀ s ∈ S, s < a.size) :
    Span.openAt (b.spans (S.image σ)) c ≠ [] ↔ Span.openAt (a.spans S) c ≠ [] := by
  rw [← List.length_pos_iff, ← List.length_pos_iff, (h.openAt_perm hw hS c).length_eq,
    List.length_map]

theorem sweepStep_image (hS : ∀ s ∈ S, s < a.size) :
    b.sweepStep (S.image σ) c = (a.sweepStep S c).image σ := by
  refine Eq.trans ?_ (h.closure_map hw fun t ht => lt_of_mem_openAt hw ht)
  exact closure_congr fun t => (h.openAt_perm hw hS c).mem_iff

/-- The image of a set has the moves of the set, to the images of its targets. -/
theorem rowsAlike_subsetMoves {S' : StateSet} (hSS' : IsImage a.size σ S S') :
    Exploration.RowsAlike (IsImage a.size σ) (a.subsetMoves S) (b.subsetMoves S') := by
  obtain ⟨hS, rfl⟩ := hSS'
  have himage : ∀ c, IsImage a.size σ (a.sweepStep S c) (b.sweepStep (S.image σ) c) :=
    fun c => ⟨fun t ht => lt_of_mem_closure ht, h.sweepStep_image hw hS⟩
  refine Exploration.rowsAlike_of_mergedRow (biUnique_isImage h.toPermutes)
    (mergedRow_subsetMoves a S) (mergedRow_subsetMoves b _) ?_ ?_
  · intro c m hm hc
    obtain ⟨hne, htarget⟩ := exists_mem_subsetMoves.1 ⟨m, hm, hc, rfl⟩
    obtain ⟨m', hm', hc', htarget'⟩ :=
      exists_mem_subsetMoves.2 ⟨(h.openAt_ne_nil_iff hw hS).2 hne, rfl⟩
    exact ⟨m', hm', hc', htarget ▸ htarget' ▸ himage c⟩
  · intro c m' hm' hc'
    obtain ⟨hne, htarget'⟩ := exists_mem_subsetMoves.1 ⟨m', hm', hc', rfl⟩
    obtain ⟨m, hm, hc, htarget⟩ :=
      exists_mem_subsetMoves.2 ⟨(h.openAt_ne_nil_iff hw hS).1 hne, rfl⟩
    exact ⟨m, hm, hc, htarget ▸ htarget' ▸ himage c⟩

omit hw in
theorem acceptsSet_image (hS : ∀ s ∈ S, s < a.size) : b.acceptsSet (S.image σ) = a.acceptsSet S := by
  rw [Bool.eq_iff_iff, mem_acceptsSet, mem_acceptsSet]
  constructor
  · rintro ⟨t, ht, hacc⟩
    obtain ⟨s, hs, rfl⟩ := StateSet.mem_image.1 ht
    exact ⟨s, hs, h.accepting s (hS s hs) ▸ hacc⟩
  · rintro ⟨s, hs, hacc⟩
    exact ⟨σ s, StateSet.mem_image.2 ⟨s, hs, rfl⟩, (h.accepting s (hS s hs)).trans hacc⟩

end Renumbers

/-! ## The result -/

/-- The automaton in which each state stands for the image of the set that it stood for. -/
def renumberOrigins (σ : State → State) (d : Automaton) : Automaton :=
  d.withOrigins fun q => (d.origin? q).map (StateSet.image σ)

variable {σ : State → State} {a b : Automaton} {s : State}

theorem Renumbers.exists_inStep (hw : a.WellFormed) (h : Renumbers σ a b) (hs : a.initial = some s) :
    ∃ e e', Exploration.Explored a.subsetMoves (a.closure [s]) e ∧
      Exploration.Explored b.subsetMoves (b.closure [σ s]) e' ∧ a.determinize = a.ofSubsets e ∧
      b.determinize = b.ofSubsets e' ∧ Exploration.InStep (IsImage a.size σ) e e' := by
  have hs' : b.initial = some (σ s) := by rw [h.initial, hs, Option.map_some]
  obtain ⟨e, he, hdet⟩ := explored_determinize hs
  obtain ⟨e', he', hdet'⟩ := explored_determinize hs'
  refine ⟨e, e', he, he', hdet, hdet', ?_⟩
  have hlt : ∀ t ∈ [s], t < a.size := by simpa using hw.initial_lt s hs
  have hfirst : IsImage a.size σ (a.closure [s]) (b.closure [σ s]) := by
    refine ⟨fun t ht => lt_of_mem_closure ht, ?_⟩
    rw [← h.closure_map hw hlt, List.map_singleton]
  exact he.inStep (biUnique_isImage h.toPermutes) hfirst
    (fun S S' hSS' => h.rowsAlike_subsetMoves hw hSS') he'

theorem Renumbers.determinize_eq (hw : a.WellFormed) (h : Renumbers σ a b) :
    b.determinize = a.determinize.renumberOrigins σ := by
  cases hs : a.initial with
  | none =>
    have hs' : b.initial = none := by rw [h.initial, hs, Option.map_none]
    rw [determinize_of_initial_eq_none hs, determinize_of_initial_eq_none hs']
    rfl
  | some s =>
    obtain ⟨e, e', -, -, hdet, hdet', hstep⟩ := h.exists_inStep hw hs
    have hacc : ∀ S S', IsImage a.size σ S S' → a.acceptsSet S = b.acceptsSet S' := by
      rintro S _ ⟨hS, rfl⟩
      exact (h.acceptsSet_image hS).symm
    rw [hdet, hdet', ofSubsets, ofSubsets, hstep.toAutomaton_eq id id hacc]
    refine withOrigins_congr fun q hq => ?_
    rw [Exploration.size_toAutomaton] at hq
    obtain ⟨S, _, hk, hk', -, rfl⟩ := hstep.exists_keys hq
    rw [Exploration.origin?_toAutomaton hk, Exploration.origin?_toAutomaton hk']
    rfl

/-- Sets and their images have the same sizes. -/
theorem Renumbers.work_eq (hw : a.WellFormed) (h : Renumbers σ a b) (hs : a.initial = some s) :
    b.work = a.work := by
  obtain ⟨e, e', he, he', hdet, hdet', hstep⟩ := h.exists_inStep hw hs
  rw [work_eq_spent he hdet, work_eq_spent he' hdet']
  symm
  apply hstep.spent_eq
  rintro S _ ⟨hS, rfl⟩
  exact (h.size_image hS).symm

/-- Whatever the numbers of the states are, determinizing gives the same automaton, but that its states
stand for the images of their sets, and a work limit suffices or does not. -/
theorem determinize_renumbered (hw : a.WellFormed) (h : Renumbers σ a b) :
    b.determinize = a.determinize.renumberOrigins σ ∧
      ∀ limit, b.determinizeWithin limit = (a.determinizeWithin limit).map (renumberOrigins σ) := by
  have hdet := h.determinize_eq hw
  refine ⟨hdet, fun limit => ?_⟩
  cases hs : a.initial with
  | none =>
    have hs' : b.initial = none := by rw [h.initial, hs, Option.map_none]
    rw [determinizeWithin_of_initial_eq_none hs, determinizeWithin_of_initial_eq_none hs', hdet]
    rfl
  | some s =>
    have hs' : b.initial = some (σ s) := by rw [h.initial, hs, Option.map_some]
    rw [determinizeWithin_eq hs, determinizeWithin_eq hs', h.work_eq hw hs, hdet]
    split <;> rfl

/-- Each state takes the number of the next one. -/
theorem permutes_turn : Permutes 3 fun s => (s + 1) % 3 := ⟨by decide, by decide⟩

theorem determinize_renumbered_overlapping :
    overlapping.WellFormed ∧
      Renumbers (fun s => (s + 1) % 3) overlapping (overlapping.renumber fun s => (s + 1) % 3) ∧
      (overlapping.renumber fun s => (s + 1) % 3).determinize =
        overlapping.determinize.renumberOrigins (fun s => (s + 1) % 3) ∧
      ∀ limit, (overlapping.renumber fun s => (s + 1) % 3).determinizeWithin limit =
        (overlapping.determinizeWithin limit).map (renumberOrigins fun s => (s + 1) % 3) :=
  have hw : overlapping.WellFormed := by decide
  have h := renumbers_renumber (a := overlapping) permutes_turn
  ⟨hw, h, determinize_renumbered hw h⟩

end Automaton

end PatternAutomata
