import PatternAutomata.Proofs.Residual

/-!
# The least automaton follows the runs of the given one

When the refinement has settled, the first member of a block has the signature of all of them, so a
step of the result leads from the block of a state to the block of the next one.  A run that still
reaches an accepting state passes kept states only, and each of them has a block:

    m.runFrom j w = some j' → a run from a member of the block of j ends in the block of j'
                                                                        (run_of_runFrom_quotient)
    a.runFrom s w = some t, t productive → m follows it from block to block
                                                                        (exists_runFrom_quotient)
-/

namespace PatternAutomata.Automaton

open Relation PatternAutomata.Partition

variable {a : Automaton} {p : Partition} {s t : State} {c : Char}

/-! ## The settled partition -/

/-- The blocks hold what is kept, members of one block share acceptance and signature, and kept
states that accept the same texts from here on share their block. -/
structure Settled (a : Automaton) (p : Partition) : Prop where
  placed : Placed a.size (· ∈ a.kept) (fun s t => a.accepting s = a.accepting t) [] p
  coarse : a.Coarse p
  uniform : ∀ i, a.Uniform p i

theorem Settled.exists_mem_block (h : Settled a p) (hs : s ∈ a.kept) : ∃ i, s ∈ p.block i :=
  h.placed.exists_mem_block hs

theorem Settled.mem_kept_of_mem_block (h : Settled a p) {i : Nat} (hs : s ∈ p.block i) :
    s ∈ a.kept := h.placed.kept_of_mem_block hs

theorem Settled.blockOf?_eq_some_iff (h : Settled a p) {i : Nat} :
    p.blockOf? s = some i ↔ s ∈ p.block i := h.placed.blockOf?_eq_some_iff

theorem placed_initialPartition (hw : a.WellFormed) :
    Placed a.size (· ∈ a.kept) (fun s t => a.accepting s = a.accepting t) []
      a.initialPartition := by
  refine Placed.foldl_push (placed_empty (parts_splitByAcceptance a a.kept.toList)
    (fun s hs => lt_size_of_mem_kept hw hs) fun g hg s hs t ht => ?_)
  rcases List.mem_cons.1 (List.mem_filter.1 hg).1 with rfl | hg
  · rw [(List.mem_filter.1 hs).2, (List.mem_filter.1 ht).2]
  · rw [List.mem_singleton.1 hg] at hs ht
    have hs := (List.mem_filter.1 hs).2
    have ht := (List.mem_filter.1 ht).2
    rw [Bool.not_eq_true'] at hs ht
    rw [hs, ht]

/-- There is a block to begin with, so there is enough fuel. -/
theorem size_lt_initialPartition (hw : a.WellFormed) (hs : a.initial = some s) :
    a.size < a.initialPartition.size + a.size := by
  obtain ⟨i, hi⟩ := (placed_initialPartition hw).exists_mem_block (mem_kept.2 (.inl hs))
  have hpos := Nat.lt_of_le_of_lt (Nat.zero_le i) (lt_size_of_mem_block hi)
  omega

theorem exists_settled (hw : a.WellFormed) (hx : a.Exclusive) (hs : a.initial = some s) :
    ∃ p, a.settle a.size a.initialPartition = .ok p ∧ Settled a p := by
  obtain ⟨p, hp, ⟨hplaced, hcoarse⟩, huni⟩ := exists_settle
    (fun p i hp hi hc => hc.splitBySignature hw hx ⟨s, hs⟩ hp hi) hx (placed_initialPartition hw)
    (coarse_initialPartition a) (size_lt_initialPartition hw hs)
  exact ⟨p, hp, hplaced, hcoarse, huni⟩

/-! ## The graph of the blocks -/

/-- The moves of a block: the signature of its first member. -/
def blockMoves (a : Automaton) (p : Partition) (i : Nat) : List (Label × Nat) :=
  match p.block i with
  | [] => []
  | s :: _ => a.signatureOf p s

theorem Uniform.blockMoves_eq {i : Nat} (h : a.Uniform p i) (hs : s ∈ p.block i) :
    a.blockMoves p i = a.signatureOf p s := by
  unfold blockMoves
  split
  · next hb =>
    rw [hb] at hs
    cases hs
  · next t _ hb => exact h t (hb ▸ List.mem_cons_self) s hs

theorem Settled.blockMoves_eq (h : Settled a p) {i : Nat} (hs : s ∈ p.block i) :
    a.blockMoves p i = a.signatureOf p s := (h.uniform i).blockMoves_eq hs

/-- The automaton of the blocks that were met. -/
def ofBlocks (a : Automaton) (p : Partition) (e : Exploration Nat) : Automaton :=
  e.toAutomaton (fun i => OrderedSet.ofList (p.block i)) fun i => (p.block i).any a.accepting

section Met

variable {r : State → State → Prop} (h : Placed a.size (· ∈ a.kept) r [] p)
include h

theorem lt_size_of_leads {i j : Nat} (hl : Exploration.Leads (a.blockMoves p) i j) : j < p.size := by
  obtain ⟨m, hm, rfl⟩ := hl
  unfold blockMoves at hm
  split at hm
  · cases hm
  · obtain ⟨n, hn, rfl⟩ := List.mem_map.1 hm
    obtain ⟨r, -, hd, -⟩ := exists_arrow_of_mem_merge hn
    exact lt_size_of_mem_block (h.blockOf?_eq_some_iff.1 hd)

theorem lt_size_of_met {first i : Nat} (hfirst : first < p.size) {e : Exploration Nat}
    (he : Exploration.Holds (a.blockMoves p) first e) (hi : i ∈ e.met.keys) : i < p.size := by
  cases he.reached i hi with
  | refl => exact hfirst
  | tail _ hl => exact lt_size_of_leads h hl

/-- All keys are places of blocks, and none is met twice. -/
theorem size_keys_le_size {first : Nat} (hfirst : first < p.size) (e : Exploration Nat)
    (he : Exploration.Holds (a.blockMoves p) first e) : e.met.keys.size ≤ p.size := by
  rw [← Array.length_toList, ← List.length_range (n := p.size)]
  refine (e.met.nodup_keys.subperm fun i hi => List.mem_range.2 ?_).length_le
  exact lt_size_of_met h hfirst he (Array.mem_toList_iff.1 hi)

/-- As many steps as there are blocks do all blocks that are met. -/
theorem explored_blockMoves {first : Nat} (hfirst : first < p.size) :
    Exploration.Explored (a.blockMoves p) first
      ((Exploration.doNext (a.blockMoves p))^[p.size] (Exploration.start first)) :=
  Exploration.explored_iterate (size_keys_le_size h hfirst)

end Met

/-- The moves of a block when its first member has a signature. -/
def quotientMoves (a : Automaton) (p : Partition) (_ : Unit) (i : Nat) :
    Except Misuse (Unit × List (Label × Nat)) :=
  match p.block i with
  | [] => .ok ((), [])
  | s :: _ => (a.signature p s).map fun σ => ((), σ)

theorem quotient_eq_explore (p : Partition) (first : Nat) :
    a.quotient p first = Exploration.explore (a.quotientMoves p) p.size () first >>= fun e =>
      .ok (a.ofBlocks p e) := rfl

theorem quotientMoves_eq_ok_iff {i : Nat} {u : Unit} {row : List (Label × Nat)} :
    a.quotientMoves p u i = .ok (u, row) ↔ row = a.blockMoves p i ∧ ∀ m ∈ row, m.1.Proper := by
  unfold quotientMoves blockMoves
  split
  · constructor
    · rintro ⟨⟩
      exact ⟨rfl, by simp⟩
    · rintro ⟨rfl, -⟩
      rfl
  · rw [← signature_eq_ok_iff]
    cases a.signature p _ with
    | error e => exact ⟨nofun, nofun⟩
    | ok σ => exact ⟨fun h => by cases h; rfl, fun h => by cases h; rfl⟩

theorem quotient_eq_of_forall {first : Nat}
    (h : ∀ i, ReflTransGen (Exploration.Leads (a.blockMoves p)) first i →
      a.quotientMoves p () i = .ok ((), a.blockMoves p i)) :
    a.quotient p first =
      .ok (a.ofBlocks p ((Exploration.doNext (a.blockMoves p))^[p.size] (Exploration.start first))) := by
  have he := Exploration.advance_eq_iterate Exploration.holds_start p.size ()
    fun (_ : Unit) i hi => ⟨(), h i hi⟩
  rw [quotient_eq_explore, Exploration.explore, he]
  rfl

section Quotient

variable (hx : a.Exclusive)
include hx

theorem mergedRow_blockMoves (p : Partition) (i : Nat) :
    Exploration.MergedRow (a.blockMoves p i) := by
  unfold blockMoves
  split
  · exact ⟨[], ⟨.nil, .nil⟩, rfl⟩
  · exact mergedRow_signatureOf (hx _) p

theorem exclusive_blockMoves (p : Partition) (i : Nat) :
    Label.Exclusive ((a.blockMoves p i).map Prod.fst) := (mergedRow_blockMoves hx p i).exclusive

theorem quotient_eq (p : Partition) (first : Nat) :
    a.quotient p first =
      .ok (a.ofBlocks p ((Exploration.doNext (a.blockMoves p))^[p.size] (Exploration.start first))) :=
  quotient_eq_of_forall fun i _ => quotientMoves_eq_ok_iff.2 ⟨rfl, fun m hm =>
    (exclusive_blockMoves hx p i).proper m.1 (List.mem_map_of_mem hm)⟩

/-! ## Runs -/

variable {e : Exploration Nat} {first i j j' : Nat} {w : List Char}

theorem step_ofBlocks (h : Settled a p) (he : Exploration.Explored (a.blockMoves p) first e)
    (hj : e.met.keys[j]? = some i) (hs : s ∈ p.block i) :
    (a.ofBlocks p e).step j c = some j' ↔
      ∃ t i', a.step s c = some t ∧ t ∈ p.block i' ∧ e.met.keys[j']? = some i' := by
  rw [ofBlocks, he.step (fun i _ => exclusive_blockMoves hx p i) hj, h.blockMoves_eq hs]
  constructor
  · rintro ⟨m, hm, hc, hj'⟩
    obtain ⟨t, ht, hb⟩ := (exists_mem_signatureOf (hx s)).1 ⟨m, hm, hc, rfl⟩
    exact ⟨t, m.2, ht, h.blockOf?_eq_some_iff.1 hb, hj'⟩
  · rintro ⟨t, i', ht, hb, hj'⟩
    obtain ⟨m, hm, hc, rfl⟩ :=
      (exists_mem_signatureOf (hx s)).2 ⟨t, ht, h.blockOf?_eq_some_iff.2 hb⟩
    exact ⟨m, hm, hc, hj'⟩

theorem run_of_runFrom_quotient (h : Settled a p)
    (he : Exploration.Explored (a.blockMoves p) first e) (hj : e.met.keys[j]? = some i)
    (hs : s ∈ p.block i) (hr : (a.ofBlocks p e).runFrom j w = some j') :
    ∃ t i', a.runFrom s w = some t ∧ t ∈ p.block i' ∧ e.met.keys[j']? = some i' := by
  induction w generalizing s i j with
  | nil =>
    cases hr
    exact ⟨s, i, rfl, hs, hj⟩
  | cons c w ih =>
    obtain ⟨k, hk, hr⟩ := Option.bind_eq_some_iff.1 hr
    obtain ⟨u, l, hu, hul, hkl⟩ := (step_ofBlocks hx h he hj hs).1 hk
    obtain ⟨t, i', ht, hti, hj'⟩ := ih hkl hul hr
    exact ⟨t, i', by rw [runFrom, hu]; exact ht, hti, hj'⟩

/-- A run that ends in a productive state passes productive states. -/
theorem exists_runFrom_quotient (hw : a.WellFormed) (h : Settled a p)
    (he : Exploration.Explored (a.blockMoves p) first e) (hj : e.met.keys[j]? = some i)
    (hs : s ∈ p.block i) (hreach : s ∈ a.reachable) (ht : a.Productive t)
    (hr : a.runFrom s w = some t) :
    ∃ j' i', (a.ofBlocks p e).runFrom j w = some j' ∧ t ∈ p.block i' ∧
      e.met.keys[j']? = some i' := by
  induction w generalizing s i j with
  | nil =>
    cases hr
    exact ⟨j, i, rfl, hs, hj⟩
  | cons c w ih =>
    obtain ⟨u, hu, hr⟩ := Option.bind_eq_some_iff.1 hr
    have hureach : u ∈ a.reachable := by
      obtain ⟨s₀, hs₀, hp⟩ := (mem_reachable hw).1 hreach
      exact (mem_reachable hw).2 ⟨s₀, hs₀, hp.tail (moves_of_step hu)⟩
    have huprod : a.Productive u := by
      obtain ⟨v, hv, htv⟩ := ht
      exact ⟨v, hv, (moves_of_runFrom hr).trans htv⟩
    have huprod' := mem_productive.2 huprod
    obtain ⟨l, hul⟩ := h.exists_mem_block (mem_kept.2 (.inr ⟨hureach, huprod'⟩))
    obtain ⟨m, hm, -, rfl⟩ :=
      (exists_mem_signatureOf (hx s)).2 ⟨u, hu, h.blockOf?_eq_some_iff.2 hul⟩
    obtain ⟨k, hk⟩ := he.target_mem hj (h.blockMoves_eq hs ▸ hm)
    obtain ⟨j', i', hr', hti, hj'⟩ := ih hk hul hureach hr
    refine ⟨j', i', ?_, hti, hj'⟩
    rw [runFrom, (step_ofBlocks hx h he hj hs).2 ⟨u, m.2, hu, hul, hk⟩]
    exact hr'

omit hx in
/-- A block accepts as each of its members does. -/
theorem Settled.any_accepting (h : Settled a p) (hs : s ∈ p.block i) :
    (p.block i).any a.accepting = a.accepting s := by
  rw [Bool.eq_iff_iff, List.any_eq_true]
  constructor
  · rintro ⟨t, ht, hacc⟩
    rwa [h.placed.related i s hs t ht]
  · exact fun hacc => ⟨s, hs, hacc⟩

omit hx in
theorem Settled.accepting_ofBlocks (h : Settled a p) (hj : e.met.keys[j]? = some i)
    (hs : s ∈ p.block i) : (a.ofBlocks p e).accepting j = a.accepting s := by
  rw [ofBlocks, Exploration.accepting_toAutomaton hj, h.any_accepting hs]

omit hx in
theorem Settled.eq_of_mem_origin (h : Settled a p) (hj : e.met.keys[j]? = some i)
    (hs : s ∈ p.block i) {S : StateSet} (ho : (a.ofBlocks p e).origin? j' = some S)
    (hS : s ∈ S) : j' = j := by
  have hlt : j' < e.met.keys.size := by
    apply Nat.lt_of_not_le
    intro hle
    rw [ofBlocks, origin?, Exploration.getElem?_nodes, Array.getElem?_eq_none hle] at ho
    cases ho
  have hk := Array.getElem?_eq_getElem hlt
  rw [ofBlocks, Exploration.origin?_toAutomaton hk] at ho
  cases ho
  have e := h.placed.eq_of_mem_block hs (OrderedSet.mem_ofList.1 hS)
  exact Numbering.eq_of_getElem? (e ▸ hk) hj

end Quotient

/-! ## The result -/

theorem minimize_of_initial_eq_some (hd : a.isDeterministic = true) (hs : a.initial = some s) :
    a.minimize = a.settle a.size a.initialPartition >>= fun p =>
      match p.blockOf? s with
      | none => .ok empty
      | some first => a.quotient p first := by
  unfold minimize
  rw [hd, hs]
  rfl

theorem minimize_of_initial_eq_none (hd : a.isDeterministic = true) (hs : a.initial = none) :
    a.minimize = .ok empty := by
  unfold minimize
  simp only [hd, Bool.not_true, Bool.false_eq_true, if_false, hs]

/-- On a deterministic automaton `minimize` gives the automaton of a settled partition, explored
from the block of the initial state. -/
theorem exists_minimize (hw : a.WellFormed) (hd : a.isDeterministic = true) (hf : a.Forward)
    (hs : a.initial = some s) :
    ∃ p first e, Settled a p ∧ s ∈ p.block first ∧
      Exploration.Explored (a.blockMoves p) first e ∧ a.minimize = .ok (a.ofBlocks p e) := by
  have hx := (isDeterministic_iff hf).1 hd
  obtain ⟨p, hp, h⟩ := exists_settled hw hx hs
  obtain ⟨first, hfirst⟩ := h.exists_mem_block (mem_kept.2 (.inl hs))
  refine ⟨p, first, _, h, hfirst, explored_blockMoves h.placed (lt_size_of_mem_block hfirst), ?_⟩
  rw [minimize_of_initial_eq_some hd hs, hp, ok_bind, h.blockOf?_eq_some_iff.2 hfirst]
  exact quotient_eq hx p first

theorem run_eq_runFrom (hs : a.initial = some s) (w : List Char) : a.run w = a.runFrom s w := by
  rw [run, hs]
  rfl

theorem mem_reachable_initial (hw : a.WellFormed) (hs : a.initial = some s) : s ∈ a.reachable :=
  (mem_reachable hw).2 ⟨s, hs, .refl⟩

/-- A block accepts the texts that its members accept from here on. -/
theorem acceptsFrom_ofBlocks (hw : a.WellFormed) (hx : a.Exclusive) (h : Settled a p)
    {first i j : Nat} {e : Exploration Nat} (he : Exploration.Explored (a.blockMoves p) first e)
    (hj : e.met.keys[j]? = some i) (hs : s ∈ p.block i) (w : List Char) :
    (a.ofBlocks p e).acceptsFrom j w = a.acceptsFrom s w := by
  have hreach := mem_reachable_of_mem_kept hw (h.mem_kept_of_mem_block hs)
  unfold acceptsFrom
  cases hm : (a.ofBlocks p e).runFrom j w with
  | some j' =>
    obtain ⟨t, i', ht, hti, hj'⟩ := run_of_runFrom_quotient hx h he hj hs hm
    rw [ht]
    exact h.accepting_ofBlocks hj' hti
  | none =>
    cases ha : a.runFrom s w with
    | none => rfl
    | some t =>
      symm
      rw [← Bool.not_eq_true]
      intro hacc
      obtain ⟨j', i', hj', -⟩ := exists_runFrom_quotient hx hw h he hj hs hreach
        ⟨t, hacc, .refl⟩ ha
      rw [hm] at hj'
      cases hj'

/-- The least automaton accepts the same texts. -/
theorem accepts_ofBlocks (hw : a.WellFormed) (hx : a.Exclusive) (hs : a.initial = some s)
    (h : Settled a p) {first : Nat} (hfirst : s ∈ p.block first) {e : Exploration Nat}
    (he : Exploration.Explored (a.blockMoves p) first e) (w : List Char) :
    (a.ofBlocks p e).accepts w = a.accepts w := by
  have hinitial : (a.ofBlocks p e).initial = some 0 := rfl
  rw [accepts_eq_acceptsFrom hinitial, accepts_eq_acceptsFrom hs,
    acceptsFrom_ofBlocks hw hx h he he.starts hfirst]

theorem minimize_accepts (hw : a.WellFormed) (hd : a.isDeterministic = true) (hf : a.Forward)
    (hs : a.initial = some s) : ∃ m, a.minimize = .ok m ∧ ∀ w, m.accepts w = a.accepts w := by
  obtain ⟨p, first, e, h, hfirst, he, hm⟩ := exists_minimize hw hd hf hs
  exact ⟨_, hm, accepts_ofBlocks hw ((isDeterministic_iff hf).1 hd) hs h hfirst he⟩

/-- Minimizing keeps the language, and a run of the result ends in the one state that stands for the
end of the given run, as long as this end still reaches an accepting state. -/
theorem minimize_follows_runs (hw : a.WellFormed) (hd : a.isDeterministic = true)
    (hf : a.Forward) (hs : a.initial = some s) :
    ∃ m, a.minimize = .ok m ∧ ∀ w, (m.accepts w = true ↔ a.accepts w = true) ∧
      ∀ t, a.run w = some t → a.Productive t →
        ∃ q S, m.run w = some q ∧ m.origin? q = some S ∧ t ∈ S ∧
          (∀ q' S', m.origin? q' = some S' → t ∈ S' → q' = q) ∧
          (m.accepting q = true ↔ a.accepting t = true) := by
  have hx := (isDeterministic_iff hf).1 hd
  obtain ⟨p, first, e, h, hfirst, he, hm⟩ := exists_minimize hw hd hf hs
  refine ⟨_, hm, fun w => ⟨?_, fun t ht hprod => ?_⟩⟩
  · rw [accepts_ofBlocks hw hx hs h hfirst he w]
  · rw [run_eq_runFrom hs] at ht
    obtain ⟨j, i, hj, hti, hk⟩ := exists_runFrom_quotient hx hw h he he.starts hfirst
      (mem_reachable_initial hw hs) hprod ht
    refine ⟨j, _, hj, Exploration.origin?_toAutomaton hk, OrderedSet.mem_ofList.2 hti,
      fun j' S ho hS => h.eq_of_mem_origin hk hti ho hS, ?_⟩
    rw [h.accepting_ofBlocks hk hti]

/-- A choice between two loops that accept the same texts, and a dead end. -/
def twoLoops : Automaton where
  nodes := #[
    { name := "S0", arrows := .ofList [⟨.symbol 'a', 1⟩, ⟨.range 'b' 'd', 2⟩, ⟨.symbol 'z', 3⟩] },
    { name := "S1", accepting := true, arrows := .ofList [⟨.range 'a' 'm', 1⟩] },
    { name := "S2", accepting := true, arrows := .ofList [⟨.range 'a' 'k', 1⟩, ⟨.range 'l' 'm', 2⟩] },
    { name := "S3" }]
  initial := some 0

theorem minimize_follows_runs_twoLoops :
    twoLoops.WellFormed ∧ twoLoops.isDeterministic = true ∧ twoLoops.Forward ∧
      twoLoops.initial = some 0 ∧
      ∃ m, twoLoops.minimize = .ok m ∧ ∀ w, (m.accepts w = true ↔ twoLoops.accepts w = true) ∧
        ∀ t, twoLoops.run w = some t → twoLoops.Productive t →
          ∃ q S, m.run w = some q ∧ m.origin? q = some S ∧ t ∈ S ∧
            (∀ q' S', m.origin? q' = some S' → t ∈ S' → q' = q) ∧
            (m.accepting q = true ↔ twoLoops.accepting t = true) :=
  have hw : twoLoops.WellFormed := by decide
  have hd : twoLoops.isDeterministic = true := by decide
  have hf : twoLoops.Forward := by decide
  ⟨hw, hd, hf, rfl, minimize_follows_runs hw hd hf rfl⟩

end PatternAutomata.Automaton
