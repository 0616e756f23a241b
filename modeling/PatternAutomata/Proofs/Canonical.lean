import PatternAutomata.Proofs.Minimize

/-!
# One least automaton for a language

The blocks of a settled partition are the residuals of the states that take part: members of a block
accept the same texts from here on, and states that do share their block.  So the blocks of two
automata with one language correspond one to one (`biUnique_sameResidual`), and their graphs are alike
down to the labels, as signatures are merged (`Settled.rowsAlike`).  Exploring them breadth first
gives both the same numbers:

    a and b accept the same texts, and some text
      → a.minimize = .ok m ∧ b.minimize = .ok n ∧ m.withoutOrigins = n.withoutOrigins
                                                                  (minimize_eq_of_accepts_eq)

When no text is accepted this fails: the initial state takes part in any case, and keeps the moves
that it has to itself.
-/

namespace PatternAutomata.Automaton

open Relator PatternAutomata.Partition

variable {a b : Automaton} {p p' : Partition} {s t : State} {i j : Nat} {w : List Char}

/-! ## Blocks and residuals -/

/-- A text that one member of a block accepts is accepted by all: each step of the run stays among
states that take part, and these have blocks. -/
theorem Settled.acceptsFrom_of_mem_block (hw : a.WellFormed) (hx : a.Exclusive) (h : Settled a p)
    (hs : s ∈ p.block i) (ht : t ∈ p.block i) (hacc : a.acceptsFrom s w = true) :
    a.acceptsFrom t w = true := by
  induction w generalizing s t i with
  | nil => exact (h.placed.related i t ht s hs).trans hacc
  | cons c w ih =>
    obtain ⟨s', hs', hacc'⟩ := exists_step_of_acceptsFrom hacc
    have hkept := mem_kept_of_step hw (h.mem_kept_of_mem_block hs) hs'
      (productive_of_acceptsFrom hacc')
    obtain ⟨i', hi'⟩ := h.exists_mem_block hkept
    have hsig := h.uniform i s hs t ht
    obtain ⟨m, hm, hc, rfl⟩ :=
      (exists_mem_signatureOf (hx s)).2 ⟨s', hs', h.blockOf?_eq_some_iff.2 hi'⟩
    rw [hsig] at hm
    obtain ⟨t', ht', hb⟩ := (exists_mem_signatureOf (hx t)).1 ⟨m, hm, hc, rfl⟩
    rw [acceptsFrom_cons_of_some ht']
    exact ih hi' (h.blockOf?_eq_some_iff.1 hb) hacc'

theorem Settled.acceptsFrom_eq (hw : a.WellFormed) (hx : a.Exclusive) (h : Settled a p)
    (hs : s ∈ p.block i) (ht : t ∈ p.block i) : a.acceptsFrom s = a.acceptsFrom t := by
  funext w
  rw [Bool.eq_iff_iff]
  exact ⟨h.acceptsFrom_of_mem_block hw hx hs ht, h.acceptsFrom_of_mem_block hw hx ht hs⟩

/-! ## Blocks of two automata -/

/-- Whether two blocks have members that accept the same texts from here on. -/
def SameResidual (a : Automaton) (p : Partition) (b : Automaton) (p' : Partition) (i j : Nat) :
    Prop :=
  ∃ s ∈ p.block i, ∃ t ∈ p'.block j, a.acceptsFrom s = b.acceptsFrom t

theorem SameResidual.symm (h : SameResidual a p b p' i j) : SameResidual b p' a p j i := by
  obtain ⟨s, hs, t, ht, hst⟩ := h
  exact ⟨t, ht, s, hs, hst.symm⟩

section TwoAutomata

variable (hwa : a.WellFormed) (hxa : a.Exclusive) (hwb : b.WellFormed) (hxb : b.Exclusive)

include hwb hxb in
theorem leftUnique_sameResidual (ha : Settled a p) (hb : Settled b p') :
    LeftUnique (SameResidual a p b p') := by
  rintro i j k ⟨s, hs, t, ht, hst⟩ ⟨s', hs', t', ht', hst'⟩
  have htt : b.acceptsFrom t = b.acceptsFrom t' := hb.acceptsFrom_eq hwb hxb ht ht'
  have hss : a.acceptsFrom s = a.acceptsFrom s' := hst.trans (htt.trans hst'.symm)
  have hmem := ha.coarse i s hs s' (ha.mem_kept_of_mem_block hs') hss
  exact ha.placed.eq_of_mem_block hmem hs'

include hwa hxa hwb hxb in
theorem biUnique_sameResidual (ha : Settled a p) (hb : Settled b p') :
    BiUnique (SameResidual a p b p') :=
  ⟨leftUnique_sameResidual hwb hxb ha hb,
    fun _ _ _ h h' => leftUnique_sameResidual hwa hxa hb ha h.symm h'.symm⟩

include hxa hwb in
/-- Steps into blocks are matched when all that takes part is productive. -/
theorem Settled.matches (ha : Settled a p) (hb : Settled b p')
    (hprod : ∀ s ∈ a.kept, a.Productive s) (ht : t ∈ p'.block j)
    (hst : a.acceptsFrom s = b.acceptsFrom t) :
    Matches (SameResidual a p b p') a p s b p' t := by
  intro c s' i' hs' hi'
  have hblock := ha.blockOf?_eq_some_iff.1 hi'
  have hw := (productive_iff hxa).1 (hprod s' (ha.mem_kept_of_mem_block hblock))
  obtain ⟨t', ht', heq⟩ := exists_step_of_acceptsFrom_eq hst hs' hw
  obtain ⟨w, hw⟩ := heq ▸ hw
  obtain ⟨j', hj'⟩ := hb.exists_mem_block
    (mem_kept_of_step hwb (hb.mem_kept_of_mem_block ht) ht' (productive_of_acceptsFrom hw))
  exact ⟨t', j', ht', hb.blockOf?_eq_some_iff.2 hj', s', hblock, t', hj', heq⟩

include hwa hxa hwb hxb in
/-- Blocks with one residual have the same moves, up to this correspondence. -/
theorem Settled.rowsAlike (ha : Settled a p) (hb : Settled b p')
    (hprod : ∀ s ∈ a.kept, a.Productive s) (hprod' : ∀ t ∈ b.kept, b.Productive t)
    (hij : SameResidual a p b p' i j) :
    Exploration.RowsAlike (SameResidual a p b p') (a.blockMoves p i) (b.blockMoves p' j) := by
  obtain ⟨s, hs, t, ht, hst⟩ := hij
  rw [ha.blockMoves_eq hs, hb.blockMoves_eq ht]
  refine rowsAlike_signatureOf (biUnique_sameResidual hwa hxa hwb hxb ha hb) (hxa s) (hxb t)
    (ha.matches hxa hwb hb hprod ht hst) ?_
  intro c t' j' ht' hj'
  obtain ⟨s', i', hs', hi', hji⟩ := hb.matches hxb hwa ha hprod' hs hst.symm c t' j' ht' hj'
  exact ⟨s', i', hs', hi', hji.symm⟩

theorem Settled.any_accepting_eq (ha : Settled a p) (hb : Settled b p')
    (hij : SameResidual a p b p' i j) :
    (p.block i).any a.accepting = (p'.block j).any b.accepting := by
  obtain ⟨s, hs, t, ht, hst⟩ := hij
  rw [ha.any_accepting hs, hb.any_accepting ht]
  exact congrFun hst []

end TwoAutomata

/-! ## The result -/

variable {first first' : Nat} {e e' : Exploration Nat}

/-- The graphs of the blocks are explored in step. -/
theorem withoutOrigins_ofBlocks_eq (hwa : a.WellFormed) (hxa : a.Exclusive)
    (hs : a.initial = some s) (hwb : b.WellFormed) (hxb : b.Exclusive) (ht : b.initial = some t)
    (ha : Settled a p) (hfirst : s ∈ p.block first)
    (he : Exploration.Explored (a.blockMoves p) first e) (hb : Settled b p')
    (hfirst' : t ∈ p'.block first') (he' : Exploration.Explored (b.blockMoves p') first' e')
    (h : ∀ w, a.accepts w = b.accepts w) (hne : ∃ w, a.accepts w = true) :
    (a.ofBlocks p e).withoutOrigins = (b.ofBlocks p' e').withoutOrigins := by
  have hst : a.acceptsFrom s = b.acceptsFrom t := by
    funext w
    rw [← accepts_eq_acceptsFrom hs, ← accepts_eq_acceptsFrom ht, h]
  obtain ⟨w, hacc⟩ := hne
  rw [accepts_eq_acceptsFrom hs] at hacc
  have hps : a.Productive s := productive_of_acceptsFrom hacc
  have hpt : b.Productive t := productive_of_acceptsFrom (hst ▸ hacc)
  have hstep := he.inStep (biUnique_sameResidual hwa hxa hwb hxb ha hb)
    ⟨s, hfirst, t, hfirst', hst⟩
    (fun i j hij => ha.rowsAlike hwa hxa hwb hxb hb
      (fun s' hs' => productive_of_mem_kept hwa hs hps hs')
      (fun t' ht' => productive_of_mem_kept hwb ht hpt ht') hij) he'
  exact hstep.withoutOrigins_eq fun i j hij => ha.any_accepting_eq hb hij

theorem withoutOrigins_eq_of_minimize_eq_ok (hwa : a.WellFormed) (hda : a.isDeterministic = true)
    (hfa : a.Forward) (hs : a.initial = some s) (hwb : b.WellFormed)
    (hdb : b.isDeterministic = true) (hfb : b.Forward) (ht : b.initial = some t) {m n : Automaton}
    (hm : a.minimize = .ok m) (hn : b.minimize = .ok n) (h : ∀ w, a.accepts w = b.accepts w)
    (hne : ∃ w, a.accepts w = true) : m.withoutOrigins = n.withoutOrigins := by
  obtain ⟨p, first, e, ha, hfirst, he, hma⟩ := exists_minimize hwa hda hfa hs
  obtain ⟨p', first', e', hb, hfirst', he', hnb⟩ := exists_minimize hwb hdb hfb ht
  rw [hma] at hm
  rw [hnb] at hn
  rw [← Except.ok.inj hm, ← Except.ok.inj hn]
  exact withoutOrigins_ofBlocks_eq hwa ((isDeterministic_iff hfa).1 hda) hs hwb
    ((isDeterministic_iff hfb).1 hdb) ht ha hfirst he hb hfirst' he' h hne

/-- Minimizing depends on the language only: automata that accept the same texts, and at least one,
have the same least automaton but for the origins of its states. -/
theorem minimize_eq_of_accepts_eq (hwa : a.WellFormed) (hda : a.isDeterministic = true)
    (hfa : a.Forward) (hs : a.initial = some s) (hwb : b.WellFormed)
    (hdb : b.isDeterministic = true) (hfb : b.Forward) (ht : b.initial = some t)
    (h : ∀ w, a.accepts w = b.accepts w) (hne : ∃ w, a.accepts w = true) :
    ∃ m n, a.minimize = .ok m ∧ b.minimize = .ok n ∧ m.withoutOrigins = n.withoutOrigins := by
  obtain ⟨m, hm, -⟩ := minimize_accepts hwa hda hfa hs
  obtain ⟨n, hn, -⟩ := minimize_accepts hwb hdb hfb ht
  exact ⟨m, n, hm, hn,
    withoutOrigins_eq_of_minimize_eq_ok hwa hda hfa hs hwb hdb hfb ht hm hn h hne⟩

/-- Automata with one least automaton accept the same texts. -/
theorem accepts_eq_of_minimize_eq (hwa : a.WellFormed) (hda : a.isDeterministic = true)
    (hfa : a.Forward) (hs : a.initial = some s) (hwb : b.WellFormed)
    (hdb : b.isDeterministic = true) (hfb : b.Forward) (ht : b.initial = some t)
    (h : a.minimize.map withoutOrigins = b.minimize.map withoutOrigins) (w : List Char) :
    a.accepts w = b.accepts w := by
  obtain ⟨m, hm, hma⟩ := minimize_accepts hwa hda hfa hs
  obtain ⟨n, hn, hnb⟩ := minimize_accepts hwb hdb hfb ht
  rw [hm, hn] at h
  have hmn : m.withoutOrigins = n.withoutOrigins := Except.ok.inj h
  rw [← hma, ← hnb, ← accepts_withoutOrigins m, hmn, accepts_withoutOrigins]

/-- The texts of `twoLoops` with the states in another order, other cuts, and more dead ends. -/
def otherLoops : Automaton where
  nodes := #[
    { name := "loop", accepting := true, arrows := .ofList [⟨.symbol 'a', 0⟩, ⟨.range 'b' 'm', 4⟩] },
    { name := "aside", accepting := true, arrows := .ofList [⟨.range 'a' 'z', 0⟩] },
    { name := "dead", arrows := .ofList [⟨.symbol 'x', 2⟩] },
    { name := "start", arrows := .ofList [⟨.range 'a' 'b', 4⟩, ⟨.range 'c' 'd', 0⟩, ⟨.symbol 'y', 2⟩] },
    { name := "again", accepting := true, arrows := .ofList [⟨.range 'a' 'f', 0⟩, ⟨.range 'g' 'm', 4⟩] }]
  initial := some 3

theorem minimize_eq_twoLoops_otherLoops :
    twoLoops.WellFormed ∧ twoLoops.isDeterministic = true ∧ twoLoops.Forward ∧
      twoLoops.initial = some 0 ∧ otherLoops.WellFormed ∧ otherLoops.isDeterministic = true ∧
      otherLoops.Forward ∧ otherLoops.initial = some 3 ∧
      (∀ w, twoLoops.accepts w = otherLoops.accepts w) ∧ (∃ w, twoLoops.accepts w = true) ∧
      ∃ m n, twoLoops.minimize = .ok m ∧ otherLoops.minimize = .ok n ∧
        m.withoutOrigins = n.withoutOrigins :=
  have hw : twoLoops.WellFormed := by decide
  have hd : twoLoops.isDeterministic = true := by decide
  have hf : twoLoops.Forward := by decide
  have hw' : otherLoops.WellFormed := by decide
  have hd' : otherLoops.isDeterministic = true := by decide
  have hf' : otherLoops.Forward := by decide
  have hm : twoLoops.minimize.map withoutOrigins = otherLoops.minimize.map withoutOrigins := by
    decide +kernel
  have h : ∀ w, twoLoops.accepts w = otherLoops.accepts w :=
    accepts_eq_of_minimize_eq hw hd hf rfl hw' hd' hf' rfl hm
  have hne : ∃ w, twoLoops.accepts w = true := ⟨['a'], by decide⟩
  ⟨hw, hd, hf, rfl, hw', hd', hf', rfl, h, hne,
    minimize_eq_of_accepts_eq hw hd hf rfl hw' hd' hf' rfl h hne⟩

end PatternAutomata.Automaton
