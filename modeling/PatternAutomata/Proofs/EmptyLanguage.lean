import PatternAutomata.Proofs.Coarsening

/-!
# Minimizing what accepts nothing

When no text is accepted, the initial state alone takes part.  Whatever leads to another state is left out
like a missing arrow, but the initial state takes part although it is dead, and so its arrows to itself
stay: the result is one state with the labels of these loops, touching ones merged.

    a.minimize = .ok (lone s (a.loops s))                                    (minimize_eq_lone)

There are none exactly when the initial state has no arrow to itself, and two automata that accept nothing
minimize alike when their loops admit the same characters (`loops_eq_iff`).
-/

namespace PatternAutomata

open StrictTotal

namespace Span

variable {α β : Type} [DecidableEq α] [DecidableEq β]

/-- Spans with one target are merged alike under each name of it. -/
theorem mergeFrom_map_of_target {x : α} (f : α → β) {p : Span α} {l : List (Span α)}
    (h : ∀ s ∈ p :: l, s.target = x) :
    mergeFrom (p.map f) (l.map (map f)) = (mergeFrom p l).map (map f) := by
  induction l generalizing p with
  | nil => rfl
  | cons s l ih =>
    obtain ⟨hp, hs, hl⟩ : p.target = x ∧ s.target = x ∧ ∀ t ∈ l, t.target = x := by simpa using h
    rw [List.map_cons]
    by_cases hps : p.continuedBy s = true
    · rw [mergeFrom_of_continuedBy hps, mergeFrom_of_continuedBy (continuedBy_map f hps)]
      exact ih (p := ⟨p.lo, s.hi, p.target⟩) (List.forall_mem_cons.2 ⟨hp, hl⟩)
    · have hps' : ¬ (p.map f).continuedBy (s.map f) = true := fun hc =>
        hps (continuedBy_iff.2 ⟨hp.trans hs.symm, (continuedBy_iff.1 hc).2⟩)
      rw [mergeFrom_of_not_continuedBy hps, mergeFrom_of_not_continuedBy hps', List.map_cons,
        ih (List.forall_mem_cons.2 ⟨hs, hl⟩)]

theorem merge_map_of_target {x : α} (f : α → β) {l : List (Span α)} (h : ∀ s ∈ l, s.target = x) :
    merge (l.map (map f)) = (merge l).map (map f) := by
  cases l with
  | nil => rfl
  | cons p l => exact mergeFrom_map_of_target f h

end Span

namespace Automaton

open PatternAutomata.Partition

variable {a b : Automaton} {p : Partition} {s t : State} {c : Char}

/-! ## Loops -/

/-- The characters of the arrows from a state to itself. -/
def loopSpans (a : Automaton) (s : State) : List (Span State) :=
  (a.arrows s).filterMap fun r =>
    if r.dest = s then r.label.bounds?.map fun b => ⟨b.1, b.2, s⟩ else none

/-- The labels of the arrows from a state to itself, touching ones merged. -/
def loops (a : Automaton) (s : State) : List Label :=
  (Span.merge (sort (a.loopSpans s))).map Span.label

/-- The automaton of one state, which stands for `s` and does not accept, with loops. -/
def lone (s : State) (ls : List Label) : Automaton where
  nodes := #[
    { name := "S0"
      origin := some (OrderedSet.ofList [s])
      arrows := OrderedSet.ofList (ls.map fun l => ⟨l, 0⟩) }]
  initial := some 0

theorem mem_loopSpans {m : Span State} :
    m ∈ a.loopSpans s ↔
      ∃ l, (⟨l, s⟩ : Arrow) ∈ a.arrows s ∧ l.bounds? = some (m.lo, m.hi) ∧ m.target = s := by
  rw [loopSpans, List.mem_filterMap]
  constructor
  · rintro ⟨⟨l, d⟩, hr, hm⟩
    split at hm
    · next e =>
      obtain ⟨b, hb, rfl⟩ := Option.map_eq_some_iff.1 hm
      have e : d = s := e
      exact ⟨l, e ▸ hr, hb, rfl⟩
    · cases hm
  · obtain ⟨lo, hi, x⟩ := m
    rintro ⟨l, hl, hb, rfl⟩
    refine ⟨_, hl, ?_⟩
    rw [if_pos rfl, hb]
    rfl

theorem separate_loopSpans (hx : a.ExclusiveAt s) : Span.Separate (sort (a.loopSpans s)) := by
  refine hx.separate_sort fun r m hm => ?_
  split at hm
  · obtain ⟨b, hb, rfl⟩ := Option.map_eq_some_iff.1 hm
    exact hb
  · cases hm

/-- The loops are the steps that stay. -/
theorem find?_merge_loopSpans (hx : a.ExclusiveAt s) {x : State} :
    Span.find? (Span.merge (sort (a.loopSpans s))) c = some x ↔ a.step s c = some s ∧ x = s := by
  have hsep := separate_loopSpans hx
  rw [Span.find?_merge hsep, Span.find?_eq_some_iff hsep]
  constructor
  · rintro ⟨m, hm, hc, rfl⟩
    obtain ⟨l, hl, hb, htarget⟩ := mem_loopSpans.1 (mem_sort.1 hm)
    have hlc := (Label.admits_iff_of_bounds? hb).2 (Span.covers_iff.1 hc)
    exact ⟨(step_eq_some_iff hx).2 ⟨l, hl, hlc⟩, htarget⟩
  · rintro ⟨hstep, rfl⟩
    obtain ⟨l, hl, hc⟩ := mem_arrows_of_step hstep
    obtain ⟨lo, hi, hb, hle⟩ := Label.admits_iff.1 hc
    exact ⟨⟨lo, hi, x⟩, mem_sort.2 (mem_loopSpans.2 ⟨l, hl, hb, rfl⟩), Span.covers_iff.2 hle, rfl⟩

theorem exists_mem_loops (hx : a.ExclusiveAt s) :
    (∃ l ∈ a.loops s, l.admits c = true) ↔ a.step s c = some s := by
  have hmerged := (separate_loopSpans hx).merge
  constructor
  · rintro ⟨l, hl, hc⟩
    obtain ⟨m, hm, rfl⟩ := List.mem_map.1 hl
    rw [Span.admits_label] at hc
    exact ((find?_merge_loopSpans hx).1 ((Span.find?_eq_some_iff hmerged).2 ⟨m, hm, hc, rfl⟩)).1
  · intro hstep
    obtain ⟨m, hm, hc, -⟩ :=
      (Span.find?_eq_some_iff hmerged).1 ((find?_merge_loopSpans hx).2 ⟨hstep, rfl⟩)
    exact ⟨m.label, List.mem_map_of_mem hm, by rwa [Span.admits_label]⟩

theorem loops_eq_nil_iff (hx : a.ExclusiveAt s) :
    a.loops s = [] ↔ ∀ l, (⟨l, s⟩ : Arrow) ∉ a.arrows s := by
  constructor
  · intro hnil l hl
    obtain ⟨c, hc⟩ := hx.proper l (List.mem_map_of_mem hl)
    obtain ⟨l', hl', -⟩ := (exists_mem_loops hx).2 ((step_eq_some_iff hx).2 ⟨l, hl, hc⟩)
    rw [hnil] at hl'
    cases hl'
  · intro hnone
    rw [List.eq_nil_iff_forall_not_mem]
    intro l hl
    obtain ⟨m, hm, rfl⟩ := List.mem_map.1 hl
    obtain ⟨n, hn, -⟩ := (Span.ascending_sort _).exists_of_mem_merge hm
    obtain ⟨l, hl, -⟩ := mem_loopSpans.1 (mem_sort.1 hn)
    exact hnone l hl

/-- Loops are written down in one way. -/
theorem loops_eq_iff (hxa : a.ExclusiveAt s) (hxb : b.ExclusiveAt t) :
    a.loops s = b.loops t ↔ ∀ c, a.step s c = some s ↔ b.step t c = some t := by
  constructor
  · intro h c
    rw [← exists_mem_loops hxa, ← exists_mem_loops hxb, h]
  · intro h
    have hR : Relator.BiUnique fun x y : State => x = s ∧ y = t :=
      ⟨fun _ _ _ hx hy => hx.1.trans hy.1.symm, fun _ _ _ hx hy => hx.2.trans hy.2.symm⟩
    have hall := Span.forall₂_alike hR (separate_loopSpans hxa).merged_merge
      (separate_loopSpans hxb).merged_merge
      (fun c x hx => by
        obtain ⟨hstep, rfl⟩ := (find?_merge_loopSpans hxa).1 hx
        exact ⟨t, (find?_merge_loopSpans hxb).2 ⟨(h c).1 hstep, rfl⟩, rfl, rfl⟩)
      (fun c x hx => by
        obtain ⟨hstep, rfl⟩ := (find?_merge_loopSpans hxb).1 hx
        exact ⟨s, (find?_merge_loopSpans hxa).2 ⟨(h c).2 hstep, rfl⟩, rfl, rfl⟩)
    rw [loops, loops, ← List.forall₂_eq_eq_eq, List.forall₂_map_left_iff, List.forall₂_map_right_iff]
    exact hall.imp fun m n hmn => by rw [Span.label, Span.label, hmn.lo, hmn.hi]

/-! ## One block -/

section OneBlock

variable {first : Nat} {e : Exploration Nat} (hw : a.WellFormed)
  (hs : a.initial = some s) (hprod : ¬ a.Productive s) (h : Settled a p) (hfirst : s ∈ p.block first)
include hw hs hprod h hfirst

theorem mem_block_iff_of_not_productive {i : Nat} : t ∈ p.block i ↔ t = s ∧ i = first := by
  constructor
  · intro ht
    cases eq_initial_of_mem_kept hw hs hprod (h.mem_kept_of_mem_block ht)
    exact ⟨rfl, h.placed.eq_of_mem_block ht hfirst⟩
  · rintro ⟨rfl, rfl⟩
    exact hfirst

theorem blockOf?_eq_of_not_productive (t : State) :
    p.blockOf? t = if t = s then some first else none := by
  refine Option.ext fun i => ?_
  rw [h.blockOf?_eq_some_iff, mem_block_iff_of_not_productive hw hs hprod h hfirst]
  split
  · next e => simp [e, eq_comm]
  · next e => simp [e]

theorem blockSpans_eq_loopSpans :
    a.blockSpans p s = (a.loopSpans s).map (Span.map fun _ => first) := by
  rw [blockSpans_eq, loopSpans, List.map_filterMap]
  refine List.filterMap_congr fun r _ => ?_
  unfold blockSpan?
  rw [blockOf?_eq_of_not_productive hw hs hprod h hfirst]
  split
  · cases r.label.bounds? <;> rfl
  · cases r.label.bounds? <;> rfl

theorem signatureOf_eq_loops (hd : a.isDeterministic = true) :
    a.signatureOf p s = (a.loops s).map fun l => (l, first) := by
  have hspans := blockSpans_eq_loopSpans hw hs hprod h hfirst
  have hne := pairwise_blockSpans hd p s
  rw [hspans, List.pairwise_map] at hne
  have htarget : ∀ m ∈ sort (a.loopSpans s), m.target = s := fun m hm => by
    obtain ⟨_, -, -, htarget⟩ := mem_loopSpans.1 (mem_sort.1 hm)
    exact htarget
  unfold signatureOf loops
  rw [hspans, Span.sort_map _ hne, Span.merge_map_of_target _ htarget, List.map_map, List.map_map]
  rfl

theorem keys_eq_of_not_productive (he : Exploration.Explored (a.blockMoves p) first e) :
    e.met.keys = #[first] := by
  have hall : ∀ i ∈ e.met.keys, i = first := by
    intro i hi
    have hlt := lt_size_of_met h.placed (lt_size_of_mem_block hfirst) he.toHolds hi
    obtain ⟨t, ht⟩ := List.exists_mem_of_ne_nil _ (h.placed.nonempty i hlt)
    exact ((mem_block_iff_of_not_productive hw hs hprod h hfirst).1 ht).2
  have hzero : ∀ i (hi : i < e.met.keys.size), i = 0 := by
    intro i hi
    have hk := Array.getElem?_eq_getElem hi
    rw [hall _ (Array.getElem_mem hi)] at hk
    exact Numbering.eq_of_getElem? hk he.starts
  have hpos := (Array.getElem?_eq_some_iff.1 he.starts).1
  have hsize : e.met.keys.size = 1 := by
    by_contra hne
    exact absurd (hzero 1 (by omega)) (by omega)
  refine Array.ext hsize fun i hi _ => ?_
  cases hzero i hi
  exact hall _ (Array.getElem_mem hi)

theorem ofBlocks_eq_lone (hd : a.isDeterministic = true)
    (he : Exploration.Explored (a.blockMoves p) first e) : a.ofBlocks p e = lone s (a.loops s) := by
  have hkeys := keys_eq_of_not_productive hw hs hprod h hfirst he
  have hrow : e.rows[0]? = some ((a.loops s).map fun l => (l, 0)) := by
    have hlt : 0 < e.rows.size := he.done ▸ (Array.getElem?_eq_some_iff.1 he.starts).1
    rw [he.rows 0 first hlt he.starts, h.blockMoves_eq hfirst,
      signatureOf_eq_loops hw hs hprod h hfirst hd, Exploration.number, List.map_map]
    refine congrArg some (List.map_congr_left fun l _ => ?_)
    rw [Function.comp_apply, Numbering.find?_eq_some_iff.2 he.starts]
    rfl
  have hmembers : OrderedSet.ofList (p.block first) = OrderedSet.ofList [s] :=
    OrderedSet.ext fun t => by
      rw [OrderedSet.mem_ofList, OrderedSet.mem_ofList, List.mem_singleton,
        mem_block_iff_of_not_productive hw hs hprod h hfirst, and_iff_left rfl]
  have haccepting : (p.block first).any a.accepting = false := by
    rw [h.any_accepting hfirst, ← Bool.not_eq_true]
    exact fun hacc => hprod ⟨s, hacc, .refl⟩
  unfold ofBlocks Exploration.toAutomaton lone
  rw [hkeys]
  show Automaton.mk #[e.node _ _ 0 first] (some 0) = _
  unfold Exploration.node
  dsimp only
  rw [hrow, hmembers, haccepting, Option.getD_some, List.map_map]
  rfl

end OneBlock

/-! ## The result -/

theorem not_productive_of_accepts_nothing (hx : a.Exclusive) (hs : a.initial = some s)
    (hnone : ∀ w, a.accepts w = false) : ¬ a.Productive s := by
  rw [productive_iff hx]
  rintro ⟨w, hw⟩
  rw [← accepts_eq_acceptsFrom hs, hnone w] at hw
  cases hw

theorem minimize_eq_lone (hw : a.WellFormed) (hd : a.isDeterministic = true) (hf : a.Forward)
    (hs : a.initial = some s) (hnone : ∀ w, a.accepts w = false) :
    a.minimize = .ok (lone s (a.loops s)) := by
  have hprod := not_productive_of_accepts_nothing ((isDeterministic_iff hf).1 hd) hs hnone
  obtain ⟨p, first, e, h, hfirst, he, hm⟩ := exists_minimize hw hd hf hs
  rw [hm, ofBlocks_eq_lone hw hs hprod h hfirst hd he]

theorem mem_arrows_lone {ls : List Label} {l : Label} :
    (⟨l, 0⟩ : Arrow) ∈ (lone s ls).arrows 0 ↔ l ∈ ls := by
  show _ ∈ (OrderedSet.ofList (ls.map fun l => (⟨l, 0⟩ : Arrow))).toList ↔ _
  rw [OrderedSet.mem_toList, OrderedSet.mem_ofList]
  simp

theorem withoutOrigins_lone (s : State) (ls : List Label) :
    (lone s ls).withoutOrigins =
      { nodes := #[{ name := "S0", arrows := OrderedSet.ofList (ls.map fun l => ⟨l, 0⟩) }]
        initial := some 0 } := by
  simp [withoutOrigins, lone, Node.withoutOrigin]

/-- An automaton that accepts nothing minimizes to one state, which does not accept and keeps the loops of
the initial state and nothing else.  So it has no arrows exactly when the initial state has none to
itself, and two such automata minimize alike exactly when their initial states loop over the same
characters. -/
theorem minimize_of_accepts_nothing (hw : a.WellFormed) (hd : a.isDeterministic = true)
    (hf : a.Forward) (hs : a.initial = some s) (hnone : ∀ w, a.accepts w = false) :
    a.minimize = .ok (lone s (a.loops s)) ∧
      (a.minimize = .ok (lone s []) ↔ ∀ l, (⟨l, s⟩ : Arrow) ∉ a.arrows s) ∧
      ∀ (b : Automaton) (t : State), b.WellFormed → b.isDeterministic = true → b.Forward →
        b.initial = some t → (∀ w, b.accepts w = false) →
          ∃ m n, a.minimize = .ok m ∧ b.minimize = .ok n ∧
            (m.withoutOrigins = n.withoutOrigins ↔
              ∀ c, a.step s c = some s ↔ b.step t c = some t) := by
  have hx := (isDeterministic_iff hf).1 hd
  have hm := minimize_eq_lone hw hd hf hs hnone
  refine ⟨hm, ?_, fun b t hwb hdb hfb ht hnoneb => ?_⟩
  · rw [← loops_eq_nil_iff (hx s), hm, Except.ok.injEq]
    constructor
    · intro h
      rw [List.eq_nil_iff_forall_not_mem]
      intro l hl
      have hl' : (⟨l, 0⟩ : Arrow) ∈ (lone s (a.loops s)).arrows 0 := mem_arrows_lone.2 hl
      rw [h] at hl'
      exact List.not_mem_nil (mem_arrows_lone.1 hl')
    · intro h
      rw [h]
  · have hxb := (isDeterministic_iff hfb).1 hdb
    refine ⟨_, _, hm, minimize_eq_lone hwb hdb hfb ht hnoneb, ?_⟩
    constructor
    · intro h c
      have hloops : ∀ l, l ∈ a.loops s ↔ l ∈ b.loops t := by
        intro l
        rw [← mem_arrows_lone (s := s), ← arrows_withoutOrigins, h, arrows_withoutOrigins,
          mem_arrows_lone]
      rw [← exists_mem_loops (hx s), ← exists_mem_loops (hxb t)]
      simp only [hloops]
    · intro h
      rw [(loops_eq_iff (hx s) (hxb t)).2 h, withoutOrigins_lone, withoutOrigins_lone]

/-- Two dead ends that lead to each other. -/
def deadEnds : Automaton where
  nodes := #[
    { name := "S0", arrows := .ofList [⟨.symbol 'a', 1⟩] },
    { name := "S1", arrows := .ofList [⟨.range 'a' 'z', 0⟩] }]
  initial := some 0

/-- A dead end that leads to itself. -/
def deadLoop : Automaton where
  nodes := #[{ name := "S0", arrows := .ofList [⟨.symbol 'a', 0⟩] }]
  initial := some 0

theorem accepts_nothing (h : a.acceptStates = []) (w : List Char) : a.accepts w = false := by
  rw [← Bool.not_eq_true]
  intro hacc
  unfold accepts at hacc
  split at hacc
  · have hmem := mem_acceptStates.2 hacc
    rw [h] at hmem
    cases hmem
  · cases hacc

theorem minimize_of_accepts_nothing_deadEnds :
    (deadEnds.WellFormed ∧ deadEnds.isDeterministic = true ∧ deadEnds.Forward ∧
      deadEnds.initial = some 0 ∧ (∀ w, deadEnds.accepts w = false) ∧
      deadEnds.minimize = .ok (lone 0 [])) ∧
    (deadLoop.WellFormed ∧ deadLoop.isDeterministic = true ∧ deadLoop.Forward ∧
      deadLoop.initial = some 0 ∧ (∀ w, deadLoop.accepts w = false) ∧
      deadLoop.minimize = .ok (lone 0 [.symbol 'a'])) ∧
    ∃ m n, deadEnds.minimize = .ok m ∧ deadLoop.minimize = .ok n ∧
      m.withoutOrigins ≠ n.withoutOrigins := by
  have hw : deadEnds.WellFormed := by decide
  have hd : deadEnds.isDeterministic = true := by decide
  have hf : deadEnds.Forward := by decide
  have hnone := accepts_nothing (a := deadEnds) (by decide)
  have hw' : deadLoop.WellFormed := by decide
  have hd' : deadLoop.isDeterministic = true := by decide
  have hf' : deadLoop.Forward := by decide
  have hnone' := accepts_nothing (a := deadLoop) (by decide)
  obtain ⟨-, hlone, hpairs⟩ := minimize_of_accepts_nothing hw hd hf rfl hnone
  obtain ⟨hm', -⟩ := minimize_of_accepts_nothing hw' hd' hf' rfl hnone'
  obtain ⟨m, n, hm, hn, hiff⟩ := hpairs deadLoop 0 hw' hd' hf' rfl hnone'
  refine ⟨⟨hw, hd, hf, rfl, hnone, hlone.2 fun l hl => ?_⟩, ⟨hw', hd', hf', rfl, hnone', hm'⟩,
    m, n, hm, hn, fun e => ?_⟩
  · have hdest : ∀ r ∈ deadEnds.arrows 0, r.dest ≠ 0 := by decide
    exact hdest _ hl rfl
  · have hstep := (hiff.1 e 'a').2 (by decide)
    revert hstep
    decide

/-- What accepts nothing may be left with arrows. -/
theorem not_minimize_of_accepts_nothing_deadLoop :
    ¬ ∀ (a : Automaton) (s : State), a.WellFormed → a.isDeterministic = true → a.Forward →
      a.initial = some s → (∀ w, a.accepts w = false) →
        ∃ m, a.minimize = .ok m ∧ m.size = 1 ∧ m.initial = some 0 ∧ m.accepting 0 = false ∧
          m.arrows 0 = [] := by
  intro h
  obtain ⟨m, hm, -, -, -, harrows⟩ := h deadLoop 0 (by decide) (by decide) (by decide) rfl
    (accepts_nothing (by decide))
  have hloop : deadLoop.minimize = .ok (lone 0 [.symbol 'a']) := by decide +kernel
  rw [hloop] at hm
  cases hm
  revert harrows
  decide

end Automaton

end PatternAutomata
