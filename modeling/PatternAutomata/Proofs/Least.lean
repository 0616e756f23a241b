import PatternAutomata.Proofs.Canonical

/-!
# The least number of states

The states of the least automaton stand for the residuals of the states that take part, one for each:
every such state is stood for (`exists_standsFor`), and two of them are by one state exactly when they
accept the same texts from here on (`standsFor_same_iff`).

A rival with the same language has each of these residuals, too: the texts that lead to a state that
takes part lead to a state of the rival (`exists_acceptsFrom_eq`).  States with different residuals
differ, so the rival has no fewer states (`size_ofBlocks_le`).
-/

namespace PatternAutomata.Automaton

open PatternAutomata.Partition

variable {a b : Automaton} {p : Partition} {s t : State} {q q' : State} {first i : Nat}
  {e : Exploration Nat}

/-- Whether a state has another one in its origin. -/
def StandsFor (m : Automaton) (q s : State) : Prop := ∃ S, m.origin? q = some S ∧ s ∈ S

/-! ## What the states stand for -/

theorem standsFor_ofBlocks :
    (a.ofBlocks p e).StandsFor q s ↔ ∃ i, e.met.keys[q]? = some i ∧ s ∈ p.block i := by
  unfold StandsFor
  constructor
  · rintro ⟨S, ho, hs⟩
    cases hq : e.met.keys[q]? with
    | none =>
      rw [ofBlocks, origin?, Exploration.getElem?_nodes, hq] at ho
      cases ho
    | some i =>
      rw [ofBlocks, Exploration.origin?_toAutomaton hq] at ho
      cases ho
      exact ⟨i, rfl, OrderedSet.mem_ofList.1 hs⟩
  · rintro ⟨i, hq, hs⟩
    exact ⟨_, Exploration.origin?_toAutomaton hq, OrderedSet.mem_ofList.2 hs⟩

theorem mem_kept_of_standsFor (h : Settled a p) (hq : (a.ofBlocks p e).StandsFor q s) :
    s ∈ a.kept := by
  obtain ⟨i, -, hs⟩ := standsFor_ofBlocks.1 hq
  exact h.mem_kept_of_mem_block hs

section Quotient

variable (hw : a.WellFormed) (hx : a.Exclusive) (h : Settled a p)

include hx in
theorem exclusive_ofBlocks (he : Exploration.Explored (a.blockMoves p) first e) :
    (a.ofBlocks p e).Exclusive := he.exclusive fun i _ => exclusive_blockMoves hx p i

include hx in
theorem isDeterministic_ofBlocks (he : Exploration.Explored (a.blockMoves p) first e) :
    (a.ofBlocks p e).isDeterministic = true := by
  have hex := exclusive_ofBlocks hx he
  exact (isDeterministic_iff (forward_of_exclusive hex)).2 hex

include h in
/-- No block is empty. -/
theorem exists_member (hfirst : s ∈ p.block first)
    (he : Exploration.Explored (a.blockMoves p) first e) (hq : q < (a.ofBlocks p e).size) :
    ∃ t, (a.ofBlocks p e).StandsFor q t := by
  rw [ofBlocks, Exploration.size_toAutomaton] at hq
  have hk := Array.getElem?_eq_getElem hq
  have hlt := lt_size_of_met h.placed (lt_size_of_mem_block hfirst) he.toHolds (Array.mem_of_getElem? hk)
  obtain ⟨t, ht⟩ := List.exists_mem_of_ne_nil _ (h.placed.nonempty _ hlt)
  exact ⟨t, standsFor_ofBlocks.2 ⟨_, hk, ht⟩⟩

include hw hx h in
/-- The block of a state that takes part is met: a text that leads to this state leads to the block. -/
theorem exists_standsFor (hs : a.initial = some s) (hfirst : s ∈ p.block first)
    (he : Exploration.Explored (a.blockMoves p) first e) (ht : t ∈ a.kept) :
    ∃ q, (a.ofBlocks p e).StandsFor q t := by
  rcases (mem_kept_iff hs).1 ht with rfl | hlive
  · exact ⟨0, standsFor_ofBlocks.2 ⟨first, he.starts, hfirst⟩⟩
  · obtain ⟨hmoves, hprod⟩ := (mem_live_iff_of_initial hw hs).1 hlive
    obtain ⟨w, hrun⟩ := exists_runFrom_of_moves hx hmoves
    obtain ⟨q, i, -, hti, hq⟩ := exists_runFrom_quotient hx hw h he he.starts hfirst
      (mem_reachable_initial hw hs) hprod hrun
    exact ⟨q, standsFor_ofBlocks.2 ⟨i, hq, hti⟩⟩

include hw hx h in
/-- States that take part have one block exactly when they have one residual. -/
theorem standsFor_same_iff (hq : (a.ofBlocks p e).StandsFor q s)
    (hq' : (a.ofBlocks p e).StandsFor q' t) :
    q = q' ↔ ∀ w, a.acceptsFrom s w = a.acceptsFrom t w := by
  obtain ⟨i, hi, hs⟩ := standsFor_ofBlocks.1 hq
  obtain ⟨j, hj, ht⟩ := standsFor_ofBlocks.1 hq'
  constructor
  · rintro rfl
    rw [hi] at hj
    cases hj
    intro w
    rw [h.acceptsFrom_eq hw hx hs ht]
  · intro hst
    have hmem := h.coarse i s hs t (h.mem_kept_of_mem_block ht) (funext hst)
    have hij := h.placed.eq_of_mem_block hmem ht
    exact Numbering.eq_of_getElem? hi (hij ▸ hj)

/-! ## A rival -/

include hw hx in
/-- A residual of a state that takes part is the residual of a state of the rival. -/
theorem exists_acceptsFrom_eq (hs : a.initial = some s) (hwb : b.WellFormed) {s' : State}
    (hs' : b.initial = some s') (hlang : ∀ w, b.accepts w = a.accepts w) (ht : t ∈ a.kept) :
    ∃ t', t' < b.size ∧ ∀ w, a.acceptsFrom t w = b.acceptsFrom t' w := by
  have hstart : ∀ w, a.acceptsFrom s w = b.acceptsFrom s' w := by
    intro w
    rw [← accepts_eq_acceptsFrom hs, ← accepts_eq_acceptsFrom hs', hlang]
  have hlt := hwb.initial_lt s' hs'
  rcases (mem_kept_iff hs).1 ht with rfl | hlive
  · exact ⟨s', hlt, hstart⟩
  · obtain ⟨hmoves, hprod⟩ := (mem_live_iff_of_initial hw hs).1 hlive
    obtain ⟨w, hrun⟩ := exists_runFrom_of_moves hx hmoves
    obtain ⟨v, hacc⟩ := (productive_iff hx).1 hprod
    -- The rival accepts `w ++ v`, so its run over `w` ends in a state.
    obtain ⟨t', hrun'⟩ : ∃ t', b.runFrom s' w = some t' := by
      apply exists_runFrom_of_acceptsFrom (v := v)
      rw [← hstart, acceptsFrom_append hrun, hacc]
    refine ⟨t', lt_size_of_runFrom hwb hlt hrun', ?_⟩
    intro u
    rw [← acceptsFrom_append hrun, ← acceptsFrom_append hrun', hstart]

include hw hx h in
/-- Different states go to different states of the rival. -/
theorem size_ofBlocks_le (hs : a.initial = some s) (hfirst : s ∈ p.block first)
    (he : Exploration.Explored (a.blockMoves p) first e) (hwb : b.WellFormed) {s' : State}
    (hs' : b.initial = some s') (hlang : ∀ w, b.accepts w = a.accepts w) :
    (a.ofBlocks p e).size ≤ b.size := by
  have hmatch : ∀ q : Fin (a.ofBlocks p e).size, ∃ t, (a.ofBlocks p e).StandsFor q t ∧
      ∃ t' : Fin b.size, ∀ w, a.acceptsFrom t w = b.acceptsFrom t' w := by
    intro q
    obtain ⟨t, ht⟩ := exists_member h hfirst he q.2
    obtain ⟨t', hlt, heq⟩ :=
      exists_acceptsFrom_eq hw hx hs hwb hs' hlang (mem_kept_of_standsFor h ht)
    exact ⟨t, ht, ⟨t', hlt⟩, heq⟩
  choose member hmember rival hrival using hmatch
  have hinj : Function.Injective rival := by
    intro q q' hqq'
    apply Fin.ext
    apply (standsFor_same_iff hw hx h (hmember q) (hmember q')).2
    intro w
    rw [hrival q, hrival q', hqq']
  simpa using Fintype.card_le_of_injective rival hinj

end Quotient

/-! ## The result -/

/-- The states of the least automaton stand for the live states and the initial one, each for those
that accept the same texts from here on, and no automaton with the same language has fewer states. -/
theorem minimize_merges_residuals (hw : a.WellFormed) (hd : a.isDeterministic = true)
    (hf : a.Forward) (hs : a.initial = some s) :
    ∃ m, a.minimize = .ok m ∧ m.isDeterministic = true ∧
      (∀ q < m.size, ∃ t, m.StandsFor q t) ∧
      (∀ q q' t, m.StandsFor q t → m.StandsFor q' t → q = q') ∧
      (∀ t, (∃ q, m.StandsFor q t) ↔ t ∈ a.live ∨ a.initial = some t) ∧
      (∀ q q' t t', m.StandsFor q t → m.StandsFor q' t' →
        (q = q' ↔ ∀ w, a.acceptsFrom t w = a.acceptsFrom t' w)) ∧
      ∀ b : Automaton, b.WellFormed → (∃ s', b.initial = some s') →
        (∀ w, b.accepts w = a.accepts w) → m.size ≤ b.size := by
  have hx := (isDeterministic_iff hf).1 hd
  obtain ⟨p, first, e, h, hfirst, he, hm⟩ := exists_minimize hw hd hf hs
  refine ⟨_, hm, isDeterministic_ofBlocks hx he, ?_, ?_, ?_, ?_, ?_⟩
  · intro q hq
    exact exists_member h hfirst he hq
  · intro q q' t hq hq'
    exact (standsFor_same_iff hw hx h hq hq').2 fun w => rfl
  · intro t
    rw [mem_live_iff, or_comm, ← mem_kept]
    constructor
    · rintro ⟨q, hq⟩
      exact mem_kept_of_standsFor h hq
    · intro ht
      exact exists_standsFor hw hx h hs hfirst he ht
  · intro q q' t t' hq hq'
    exact standsFor_same_iff hw hx h hq hq'
  · rintro b hwb ⟨s', hs'⟩ hlang
    exact size_ofBlocks_le hw hx h hs hfirst he hwb hs' hlang

/-- The two loops become one state, and five states are not fewer. -/
theorem minimize_merges_residuals_twoLoops :
    twoLoops.WellFormed ∧ twoLoops.isDeterministic = true ∧ twoLoops.Forward ∧
      twoLoops.initial = some 0 ∧ otherLoops.WellFormed ∧ otherLoops.initial = some 3 ∧
      (∀ w, otherLoops.accepts w = twoLoops.accepts w) ∧
      ∃ m, twoLoops.minimize = .ok m ∧ m.StandsFor 1 1 ∧ m.StandsFor 1 2 ∧
        (∀ w, twoLoops.acceptsFrom 1 w = twoLoops.acceptsFrom 2 w) ∧ m.size ≤ otherLoops.size := by
  have hw : twoLoops.WellFormed := by decide
  have hd : twoLoops.isDeterministic = true := by decide
  have hf : twoLoops.Forward := by decide
  have hw' : otherLoops.WellFormed := by decide
  have hlang : ∀ w, otherLoops.accepts w = twoLoops.accepts w :=
    accepts_eq_of_minimize_eq hw' (by decide) (by decide) rfl hw hd hf rfl (by decide +kernel)
  obtain ⟨m, hm, -, -, -, -, hsame, hleast⟩ := minimize_merges_residuals hw hd hf rfl
  have horigin : twoLoops.minimize.map (fun m => m.origin? 1) = .ok (some (.ofList [1, 2])) := by
    decide +kernel
  rw [hm] at horigin
  have hone : m.StandsFor 1 1 := ⟨_, Except.ok.inj horigin, by decide⟩
  have htwo : m.StandsFor 1 2 := ⟨_, Except.ok.inj horigin, by decide⟩
  exact ⟨hw, hd, hf, rfl, hw', rfl, hlang, m, hm, hone, htwo, (hsame 1 1 1 2 hone htwo).1 rfl,
    hleast otherLoops hw' ⟨3, rfl⟩ hlang⟩

end PatternAutomata.Automaton
