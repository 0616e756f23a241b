import PatternAutomata.Proofs.Least
import PatternAutomata.Proofs.Subsets

/-!
# A second pass finds its own result again

Determinizing and minimizing both explore a graph whose rows are made from merged spans.  When a second
graph has a key for each state of the result, its own for each, and merged rows that lead where the
state steps (`Retraces`), exploring it numbers the keys as the states are numbered, and the result is
the same automaton again, but for the origins:

    Explored f first e → Retraces e.toAutomaton g key → Explored g (key 0) e'
      → e'.toAutomaton = e.toAutomaton with the origins of the keys          (Explored.retrace)

The sets of one state each retrace a deterministic automaton (`retraces_subsetMoves`), and so do the
blocks of a settled partition, when each holds one state (`retraces_blockMoves`).  The least automaton
has such a partition: all of its states take part (`mem_kept_ofBlocks`), and no two of them accept the
same texts from here on (`eq_of_acceptsFrom_ofBlocks`).
-/

namespace PatternAutomata

open Relation Relator

namespace Exploration

variable {κ κ' : Type} [StrictTotal κ] [DecidableEq κ']

/-- Whether a graph has a key for each state of an automaton, with a merged row that leads where the
state steps. -/
structure Retraces (d : Automaton) (g : κ' → List (Label × κ')) (key : State → κ') : Prop where
  inj : ∀ i < d.size, ∀ j < d.size, key i = key j → i = j
  merged : ∀ i < d.size, MergedRow (g (key i))
  leads : ∀ i < d.size, ∀ c k,
    (∃ m ∈ g (key i), m.1.admits c = true ∧ m.2 = k) ↔ ∃ j, d.step i c = some j ∧ key j = k

variable {f : κ → List (Label × κ)} {g : κ' → List (Label × κ')} {first : κ} {key : State → κ'}
  {e : Exploration κ} {origin : κ → StateSet} {accepting : κ → Bool}

/-- Whether the second key is that of the state whose number the first one has. -/
def SameState (e : Exploration κ) (key : State → κ') (x : κ) (y : κ') : Prop :=
  ∃ i, e.met.keys[i]? = some x ∧ key i = y

theorem biUnique_sameState (hr : Retraces (e.toAutomaton origin accepting) g key) :
    BiUnique (SameState e key) := by
  constructor
  · rintro x x' y ⟨i, hi, rfl⟩ ⟨j, hj, hij⟩
    cases hr.inj j (lt_size_toAutomaton hj) i (lt_size_toAutomaton hi) hij
    exact Option.some.inj (hi.symm.trans hj)
  · rintro x y y' ⟨i, hi, rfl⟩ ⟨j, hj, rfl⟩
    rw [Numbering.eq_of_getElem? hi hj]

variable [DecidableEq κ]

/-- Both rows lead where the state steps. -/
theorem Explored.rowsAlike_sameState (h : Explored f first e) (hf : ∀ k, MergedRow (f k))
    (hr : Retraces (e.toAutomaton origin accepting) g key) {x : κ} {y : κ'}
    (hxy : SameState e key x y) : RowsAlike (SameState e key) (f x) (g y) := by
  have hunique := biUnique_sameState hr
  obtain ⟨i, hi, rfl⟩ := hxy
  have hlt : i < (e.toAutomaton origin accepting).size := lt_size_toAutomaton hi
  have hstep : ∀ {c j}, (e.toAutomaton origin accepting).step i c = some j ↔
      ∃ m ∈ f x, m.1.admits c = true ∧ e.met.keys[j]? = some m.2 :=
    h.step (fun k _ => (hf k).exclusive) hi
  refine rowsAlike_of_mergedRow hunique (hf x) (hr.merged i hlt) ?_ ?_
  · intro c m hm hc
    obtain ⟨j, hj⟩ := h.target_mem hi hm
    obtain ⟨m', hm', hc', hkey⟩ := (hr.leads i hlt c (key j)).2 ⟨j, hstep.2 ⟨m, hm, hc, hj⟩, rfl⟩
    exact ⟨m', hm', hc', j, hj, hkey.symm⟩
  · intro c m' hm' hc'
    obtain ⟨j, hj, hkey⟩ := (hr.leads i hlt c m'.2).1 ⟨m', hm', hc', rfl⟩
    obtain ⟨m, hm, hc, hk⟩ := hstep.1 hj
    exact ⟨m, hm, hc, j, hk, hkey⟩

variable [StrictTotal κ'] {e' : Exploration κ'}

/-- Exploring a graph that retraces an automaton gives this automaton, but for the origins. -/
theorem Explored.retrace (h : Explored f first e) (hf : ∀ k, MergedRow (f k))
    (hr : Retraces (e.toAutomaton origin accepting) g key) (h' : Explored g (key 0) e')
    {origin' : κ' → StateSet} {accepting' : κ' → Bool}
    (hacc : ∀ i < (e.toAutomaton origin accepting).size,
      accepting' (key i) = (e.toAutomaton origin accepting).accepting i) :
    e'.toAutomaton origin' accepting' =
      (e.toAutomaton origin accepting).withOrigins fun i => some (origin' (key i)) := by
  have hstep := h.inStep (biUnique_sameState hr) ⟨0, h.starts, rfl⟩
    (fun x y hxy => h.rowsAlike_sameState hf hr hxy) h'
  have hsame : ∀ x y, SameState e key x y → accepting x = accepting' y := by
    rintro x y ⟨i, hi, rfl⟩
    rw [hacc i (lt_size_toAutomaton hi), accepting_toAutomaton hi]
  rw [hstep.toAutomaton_eq origin origin' hsame]
  refine Automaton.withOrigins_congr fun i hi => ?_
  rw [size_toAutomaton] at hi
  obtain ⟨x, y, hx, hy, j, hj, rfl⟩ := hstep.exists_keys hi
  rw [origin?_toAutomaton hy, Numbering.eq_of_getElem? hx hj]

end Exploration

namespace Automaton

open Exploration

/-- The automaton in which each state stands for itself alone. -/
def ofItself (a : Automaton) : Automaton := a.withOrigins fun s => some (OrderedSet.ofList [s])

variable {a d : Automaton} {p q : Partition} {s t : State} {c : Char} {i j : Nat}

/-! ## Sets of one state -/

theorem not_emptyMove (hx : d.Exclusive) : ¬ d.EmptyMove s t := by
  intro h
  obtain ⟨c, hc⟩ := (hx s).proper _ (List.mem_map_of_mem h)
  cases hc

theorem mem_openAt_singleton (hx : d.Exclusive) :
    t ∈ Span.openAt (d.spans (OrderedSet.ofList [s])) c ↔ d.step s c = some t := by
  rw [mem_openAt_spans (forward_of_exclusive hx), mem_move, step_eq_some_iff (hx s)]
  simp

theorem closure_singleton (hw : d.WellFormed) (hx : d.Exclusive) (hs : s < d.size) :
    d.closure [s] = OrderedSet.ofList [s] := by
  refine OrderedSet.ext fun t => ?_
  rw [mem_closure_of_not_emptyMove hw (fun _ _ => not_emptyMove hx) (by simpa using hs),
    OrderedSet.mem_ofList]

theorem sweepStep_singleton (hw : d.WellFormed) (hx : d.Exclusive) (hst : d.step s c = some t) :
    d.sweepStep (OrderedSet.ofList [s]) c = OrderedSet.ofList [t] := by
  rw [← closure_singleton hw hx (hw.lt_of_moves (moves_of_step hst))]
  refine closure_congr fun u => ?_
  rw [mem_openAt_singleton hx, hst, List.mem_singleton, Option.some.injEq, eq_comm]

theorem retraces_subsetMoves (hw : d.WellFormed) (hx : d.Exclusive) :
    Retraces d d.subsetMoves fun s => OrderedSet.ofList [s] := by
  refine ⟨fun s _ t _ hst => ?_, fun s _ => mergedRow_subsetMoves d _, fun s _ c S => ?_⟩
  · simpa using OrderedSet.ext_iff.1 hst s
  · rw [exists_mem_subsetMoves]
    constructor
    · rintro ⟨hne, rfl⟩
      obtain ⟨t, ht⟩ := List.exists_mem_of_ne_nil _ hne
      have hst := (mem_openAt_singleton hx).1 ht
      exact ⟨t, hst, (sweepStep_singleton hw hx hst).symm⟩
    · rintro ⟨t, hst, rfl⟩
      exact ⟨List.ne_nil_of_mem ((mem_openAt_singleton hx).2 hst),
        (sweepStep_singleton hw hx hst).symm⟩

/-- Determinizing finds an automaton of merged rows again. -/
theorem determinize_toAutomaton {κ : Type} [StrictTotal κ] [DecidableEq κ]
    {f : κ → List (Label × κ)} {first : κ} {e : Exploration κ} (h : Explored f first e)
    (hf : ∀ k, MergedRow (f k)) (origin : κ → StateSet) (accepting : κ → Bool) :
    (e.toAutomaton origin accepting).determinize = (e.toAutomaton origin accepting).ofItself := by
  have hw : (e.toAutomaton origin accepting).WellFormed := h.wellFormed
  have hx : (e.toAutomaton origin accepting).Exclusive := h.exclusive fun k _ => (hf k).exclusive
  obtain ⟨e', h', he'⟩ := explored_determinize (a := e.toAutomaton origin accepting) rfl
  rw [closure_singleton hw hx (hw.initial_lt 0 rfl)] at h'
  rw [he', ofSubsets]
  refine h.retrace hf (retraces_subsetMoves hw hx) h' fun i _ => ?_
  rw [Bool.eq_iff_iff, mem_acceptsSet]
  simp

/-! ## Blocks of one state -/

theorem retraces_blockMoves (hw : d.WellFormed) (hx : d.Exclusive) (h : Settled d p)
    {key : State → Nat} (hkey : ∀ s < d.size, ∀ t, t ∈ p.block (key s) ↔ t = s) :
    Retraces d (d.blockMoves p) key := by
  have hself : ∀ s < d.size, s ∈ p.block (key s) := fun s hs => (hkey s hs s).2 rfl
  refine ⟨fun s hs t ht hst => ?_, fun s hs => ?_, fun s hs c k => ?_⟩
  · exact (hkey t ht s).1 (hst ▸ hself s hs)
  · rw [h.blockMoves_eq (hself s hs)]
    exact mergedRow_signatureOf (hx s) p
  · rw [h.blockMoves_eq (hself s hs), exists_mem_signatureOf (hx s)]
    refine exists_congr fun t => and_congr_right fun hst => ?_
    have ht := hw.lt_of_moves (moves_of_step hst)
    rw [h.blockOf?_eq_some_iff.2 (hself t ht), Option.some.injEq]

section LeastAutomaton

variable {first : Nat} {e : Exploration Nat} (hw : a.WellFormed) (hx : a.Exclusive)
  (h : Settled a p) (hs : a.initial = some s) (hfirst : s ∈ p.block first)
  (he : Explored (a.blockMoves p) first e)

include hw hx h hs hfirst he in
/-- All states of the least automaton take part in it. -/
theorem mem_kept_ofBlocks (hj : j < (a.ofBlocks p e).size) : j ∈ (a.ofBlocks p e).kept := by
  have hwm : (a.ofBlocks p e).WellFormed := he.wellFormed
  obtain ⟨t, ht⟩ := exists_member h hfirst he hj
  obtain ⟨i, hi, hti⟩ := standsFor_ofBlocks.1 ht
  rw [mem_kept]
  by_cases hprod : a.Productive s
  · right
    refine ⟨(mem_reachable hwm).2 ⟨0, rfl, he.reaches hi⟩, mem_productive.2 ?_⟩
    have hprod' := productive_of_mem_kept hw hs hprod (h.mem_kept_of_mem_block hti)
    obtain ⟨w, hacc⟩ := (productive_iff hx).1 hprod'
    rw [← acceptsFrom_ofBlocks hw hx h he hi hti] at hacc
    exact productive_of_acceptsFrom hacc
  · left
    cases eq_initial_of_mem_kept hw hs hprod (h.mem_kept_of_mem_block hti)
    rw [← h.placed.eq_of_mem_block hfirst hti] at hi
    rw [Numbering.eq_of_getElem? hi he.starts]
    rfl

include hw hx h hfirst he in
/-- The states of the least automaton accept different texts from here on. -/
theorem eq_of_acceptsFrom_ofBlocks {j' : Nat} (hj : j < (a.ofBlocks p e).size)
    (hj' : j' < (a.ofBlocks p e).size)
    (hjj' : (a.ofBlocks p e).acceptsFrom j = (a.ofBlocks p e).acceptsFrom j') : j = j' := by
  obtain ⟨t, ht⟩ := exists_member h hfirst he hj
  obtain ⟨t', ht'⟩ := exists_member h hfirst he hj'
  refine (standsFor_same_iff hw hx h ht ht').2 fun w => ?_
  obtain ⟨i, hi, hti⟩ := standsFor_ofBlocks.1 ht
  obtain ⟨i', hi', hti'⟩ := standsFor_ofBlocks.1 ht'
  rw [← acceptsFrom_ofBlocks hw hx h he hi hti, hjj', acceptsFrom_ofBlocks hw hx h he hi' hti']

include hw hx h hs hfirst he in
/-- Refining the least automaton splits all blocks down to one state. -/
theorem exists_block_ofBlocks (hq : Settled (a.ofBlocks p e) q) (hj : j < (a.ofBlocks p e).size) :
    ∃ k, ∀ i, i ∈ q.block k ↔ i = j := by
  have hwm : (a.ofBlocks p e).WellFormed := he.wellFormed
  have hxm := exclusive_ofBlocks hx he
  obtain ⟨k, hk⟩ := hq.exists_mem_block (mem_kept_ofBlocks hw hx h hs hfirst he hj)
  refine ⟨k, fun i => ⟨fun hi => ?_, ?_⟩⟩
  · have hlt := lt_size_of_mem_kept hwm (hq.mem_kept_of_mem_block hi)
    exact eq_of_acceptsFrom_ofBlocks hw hx h hfirst he hlt hj (hq.acceptsFrom_eq hwm hxm hi hk)
  · rintro rfl
    exact hk

include hw hx h hs hfirst he in
theorem minimize_ofBlocks : (a.ofBlocks p e).minimize = .ok (a.ofBlocks p e).ofItself := by
  have hwm : (a.ofBlocks p e).WellFormed := he.wellFormed
  have hxm := exclusive_ofBlocks hx he
  obtain ⟨q, first', e', hq, hfirst', he', hm⟩ :=
    exists_minimize hwm (isDeterministic_ofBlocks hx he) (forward_of_exclusive hxm) rfl
  have hblock : ∀ j < (a.ofBlocks p e).size, ∃ k, ∀ i, i ∈ q.block k ↔ i = j :=
    fun j hj => exists_block_ofBlocks hw hx h hs hfirst he hq hj
  choose! key hkey using hblock
  have hzero := hwm.initial_lt 0 rfl
  rw [hq.placed.eq_of_mem_block hfirst' ((hkey 0 hzero 0).2 rfl)] at he'
  rw [hm]
  refine congrArg Except.ok ?_
  refine (he.retrace (mergedRow_blockMoves hx p) (retraces_blockMoves hwm hxm hq hkey) he'
    fun j hj => hq.any_accepting ((hkey j hj j).2 rfl)).trans ?_
  refine withOrigins_congr fun j hj => congrArg some (OrderedSet.ext fun i => ?_)
  rw [OrderedSet.mem_ofList, OrderedSet.mem_ofList, hkey j hj, List.mem_singleton]

end LeastAutomaton

/-! ## The result -/

/-- A second pass over a determinized or least automaton gives it again, with each state standing for
itself alone. -/
theorem second_pass_eq_ofItself :
    (∀ a : Automaton, a.determinize.determinize = a.determinize.ofItself) ∧
      ∀ a : Automaton, a.WellFormed → a.isDeterministic = true → a.Forward →
        ∃ m, a.minimize = .ok m ∧ m.minimize = .ok m.ofItself ∧ m.determinize = m.ofItself := by
  constructor
  · intro a
    cases hs : a.initial with
    | none =>
      rw [determinize_of_initial_eq_none hs]
      rfl
    | some s =>
      obtain ⟨e, h, he⟩ := explored_determinize hs
      rw [he, ofSubsets]
      exact determinize_toAutomaton h (mergedRow_subsetMoves a) id a.acceptsSet
  · intro a hw hd hf
    cases hs : a.initial with
    | none => exact ⟨empty, minimize_of_initial_eq_none hd hs, rfl, rfl⟩
    | some s =>
      have hx := (isDeterministic_iff hf).1 hd
      obtain ⟨p, first, e, h, hfirst, he, hm⟩ := exists_minimize hw hd hf hs
      exact ⟨_, hm, minimize_ofBlocks hw hx h hs hfirst he,
        determinize_toAutomaton he (mergedRow_blockMoves hx p) _ _⟩

/-- No text is accepted: the initial state has two loops, which touch, and a way out and back. -/
def barren : Automaton where
  nodes := #[
    { name := "S0", arrows := .ofList [⟨.range 'a' 'f', 0⟩, ⟨.symbol 'g', 0⟩, ⟨.symbol 'z', 1⟩] },
    { name := "S1", arrows := .ofList [⟨.symbol 'a', 0⟩] }]
  initial := some 0

theorem second_pass_eq_ofItself_barren :
    overlapping.determinize.determinize = overlapping.determinize.ofItself ∧
      (twoLoops.WellFormed ∧ twoLoops.isDeterministic = true ∧ twoLoops.Forward ∧
        ∃ m, twoLoops.minimize = .ok m ∧ m.minimize = .ok m.ofItself ∧ m.determinize = m.ofItself) ∧
      barren.WellFormed ∧ barren.isDeterministic = true ∧ barren.Forward ∧
        ∃ m, barren.minimize = .ok m ∧ m.minimize = .ok m.ofItself ∧ m.determinize = m.ofItself :=
  have hw : twoLoops.WellFormed := by decide
  have hd : twoLoops.isDeterministic = true := by decide
  have hf : twoLoops.Forward := by decide
  have hw' : barren.WellFormed := by decide
  have hd' : barren.isDeterministic = true := by decide
  have hf' : barren.Forward := by decide
  ⟨second_pass_eq_ofItself.1 overlapping,
    ⟨hw, hd, hf, second_pass_eq_ofItself.2 twoLoops hw hd hf⟩,
    hw', hd', hf', second_pass_eq_ofItself.2 barren hw' hd' hf'⟩

end Automaton

end PatternAutomata
