import PatternAutomata.Proofs.Minimize

/-!
# The loops of the refinement

The refinement looks at one block after the other and counts its rounds.  A block that splits leaves
its other groups behind the blocks still to be looked at, and a round with a split is followed by
another round.  `Refining.next` is one turn of these loops, and `Reached a x` says that they come to `x`.

A turn keeps the partition in place, and it leaves the blocks alone or adds some (`Sound.turn`).  Each
round but the first follows a split, so there are no more rounds than blocks, and no more blocks than
states that are kept:

    Reached a x → Sound a x                                                          (Reached.sound)
    Sound a x → x.rounds ≤ a.kept.size                                             (Sound.rounds_le)
    a.settle fuel p = .ok q → the loops end at q                            (exists_turns_of_settle)

While a round has no split, the blocks that it has looked at are uniform in one and the same partition.
A split makes that worthless, and the next round begins anew.
-/

namespace PatternAutomata

open Relation PatternAutomata.Partition

variable {a : Automaton} {p q : Partition} {s t : State}

/-! ## The loops -/

/-- The refinement before it looks at a block. -/
structure Refining where
  /-- The blocks as they are by now. -/
  partition : Partition
  /-- The place of the block to look at. -/
  place : Nat
  /-- Whether this round has split a block. -/
  split : Bool
  /-- The number of rounds, with this one. -/
  rounds : Nat

namespace Refining

open Automaton

/-- The first round, before it looks at a block. -/
def start (a : Automaton) : Refining := ⟨a.initialPartition, 0, false, 1⟩

/-- The next place to look at, with the blocks as they are. -/
def advance (x : Refining) : Refining := { x with place := x.place + 1 }

/-- Groups of the block at the place: more than one group splits it. -/
def take (x : Refining) (groups : List (List State)) : Refining :=
  if groups.length ≤ 1 then x.advance
  else ⟨x.partition.split x.place groups, x.place + 1, true, x.rounds⟩

/-- Looks at the block at the place and groups its members by signature. -/
def look (a : Automaton) (x : Refining) : Except Misuse Refining :=
  let block := x.partition.block x.place
  if block.length ≤ 1 then .ok x.advance
  else do
    let signatures ← block.mapM (a.signature x.partition)
    .ok (x.take (groupBySignature (signatures.zip block)))

/-- One turn of the loops, if they go on: another look, or another round after one with a split. -/
def next (a : Automaton) (x : Refining) : Except Misuse (Option Refining) :=
  if x.place < x.partition.size then (x.look a).map some
  else if x.split then .ok (some ⟨x.partition, 0, false, x.rounds + 1⟩)
  else .ok none

/-- A turn from one point of the loops to another. -/
def Turn (a : Automaton) (x y : Refining) : Prop := x.next a = .ok (some y)

/-- The loops come to a point. -/
def Reached (a : Automaton) (x : Refining) : Prop := ReflTransGen (Turn a) (start a) x

/-! ## One turn -/

variable {x y : Refining} {kept : State → Prop} {r : State → State → Prop}

/-- A split keeps the partition in place.  It adds blocks or finds the block uniform. -/
theorem placed_splitBlock (h : Placed a.size kept r [] p) {i : Nat} (hi : i < p.size)
    (hq : a.splitBlock p i = .ok q) :
    Placed a.size kept r [] q ∧ (p.size < q.size ∨ q = p ∧ a.Uniform p i) := by
  obtain ⟨⟨hplaced, -⟩, hsplit⟩ :=
    splitBlock_spec (Q := fun _ => True) (fun _ _ _ _ _ => trivial) h trivial hi hq
  exact ⟨hplaced, hsplit⟩

/-- A round keeps the partition in place.  It adds blocks or finds all of them uniform. -/
theorem placed_refineFrom (h : Placed a.size kept r [] p) {fuel i : Nat} (hf : a.size ≤ i + fuel)
    (hq : a.refineFrom fuel i p = .ok q) :
    Placed a.size kept r [] q ∧ (p.size < q.size ∨ q = p ∧ ∀ j, i ≤ j → a.Uniform p j) := by
  obtain ⟨⟨hplaced, -⟩, hround⟩ :=
    refineFrom_spec (Q := fun _ => True) (fun _ _ _ _ _ => trivial) h trivial hf hq
  exact ⟨hplaced, hround⟩

/-- A split shows in the number of blocks. -/
theorem take_eq (hi : x.place < x.partition.size) {f : State → Signature} {groups : List (List State)}
    (hg : groups = groupBySignature ((x.partition.block x.place).map fun s => (f s, s))) :
    x.take groups = ⟨x.partition.split x.place groups, x.place + 1,
      x.split || decide (x.partition.size < (x.partition.split x.place groups).size), x.rounds⟩ := by
  unfold take advance
  match groups with
  | [] => simp [Partition.split]
  | [g] =>
    obtain ⟨rfl, -⟩ := eq_of_groupBySignature_eq_singleton hg.symm
    simp [split_block_self hi]
  | first :: second :: others => simp [size_split]

/-- A look is a split of the block at the place. -/
theorem look_eq (hi : x.place < x.partition.size) :
    x.look a = (a.splitBlock x.partition x.place).map fun q =>
      ⟨q, x.place + 1, x.split || decide (x.partition.size < q.size), x.rounds⟩ := by
  unfold look splitBlock
  dsimp only
  by_cases hlen : (x.partition.block x.place).length ≤ 1
  · rw [if_pos hlen, if_pos hlen]
    simp [advance, Except.map]
  · rw [if_neg hlen, if_neg hlen]
    cases hsignatures : (x.partition.block x.place).mapM (a.signature x.partition) with
    | error e => rfl
    | ok signatures =>
      rw [ok_bind, ok_bind, signatures_eq hsignatures, zip_map_self, take_eq hi rfl]
      rfl

/-- While there are blocks to look at, a turn splits the next one. -/
theorem turn_iff_of_lt (hi : x.place < x.partition.size) :
    Turn a x y ↔ ∃ q, a.splitBlock x.partition x.place = .ok q ∧
      y = ⟨q, x.place + 1, x.split || decide (x.partition.size < q.size), x.rounds⟩ := by
  unfold Turn next
  rw [if_pos hi, look_eq hi]
  cases a.splitBlock x.partition x.place with
  | error e => simp [Except.map]
  | ok q => simp [Except.map, eq_comm]

/-- Behind the last block, a turn is another round. -/
theorem turn_iff_of_le (hi : x.partition.size ≤ x.place) :
    Turn a x y ↔ x.split = true ∧ y = ⟨x.partition, 0, false, x.rounds + 1⟩ := by
  unfold Turn next
  rw [if_neg (by omega)]
  cases x.split <;> simp [eq_comm]

/-- The loops end behind the last block of a round without a split. -/
theorem next_eq_none_iff : x.next a = .ok none ↔ x.split = false ∧ x.partition.size ≤ x.place := by
  unfold next
  by_cases hi : x.place < x.partition.size
  · rw [if_pos hi]
    cases x.look a <;> simp [Except.map, hi]
  · rw [if_neg hi]
    cases x.split <;> simp [Nat.le_of_not_lt hi]

/-- What holds before each look. -/
structure Sound (a : Automaton) (x : Refining) : Prop where
  placed : Placed a.size (· ∈ a.kept) (fun s t => a.accepting s = a.accepting t) [] x.partition
  rounds_add_split_le : x.rounds + x.split.toNat ≤ x.partition.size
  uniform : x.split = false → ∀ i, i < x.place → a.Uniform x.partition i

theorem sound_start (hw : a.WellFormed) (hs : a.initial = some s) : Sound a (start a) := by
  refine ⟨placed_initialPartition hw, ?_, fun _ i hi => absurd hi (Nat.not_lt_zero i)⟩
  have hpos := size_lt_initialPartition hw hs
  show 1 + 0 ≤ a.initialPartition.size
  omega

/-- A turn keeps what holds, and changes the blocks only when it adds some. -/
theorem Sound.turn (h : Sound a x) (hxy : Turn a x y) :
    Sound a y ∧ (y.partition = x.partition ∨ x.partition.size < y.partition.size) := by
  have hrounds := h.rounds_add_split_le
  by_cases hi : x.place < x.partition.size
  · obtain ⟨q, hq, rfl⟩ := (turn_iff_of_lt hi).1 hxy
    obtain ⟨hplaced, hsplit⟩ := placed_splitBlock h.placed hi hq
    rcases hsplit with hlt | ⟨rfl, huniform⟩
    · refine ⟨⟨hplaced, ?_, ?_⟩, .inr hlt⟩
      · have hbool := Bool.toNat_le (x.split || decide (x.partition.size < q.size))
        dsimp only
        omega
      · simp [hlt]
    · refine ⟨⟨hplaced, by simpa using hrounds, fun hfalse i hle => ?_⟩, .inl rfl⟩
      have hfalse : x.split = false := by simpa using hfalse
      -- The blocks are still the ones that the earlier looks of this round have seen.
      by_cases hip : i = x.place
      · rw [hip]
        exact huniform
      · exact h.uniform hfalse i (by dsimp only at hle; omega)
  · obtain ⟨hsplit, rfl⟩ := (turn_iff_of_le (by omega)).1 hxy
    rw [hsplit] at hrounds
    exact ⟨⟨h.placed, hrounds, fun _ i hi => absurd hi (Nat.not_lt_zero i)⟩, .inl rfl⟩

/-- What holds of each point that the loops come to. -/
theorem Reached.sound (hw : a.WellFormed) (hs : a.initial = some s) (h : Reached a x) : Sound a x := by
  induction h with
  | refl => exact sound_start hw hs
  | tail _ hxy ih => exact (ih.turn hxy).1

/-- At the end the round has looked at all blocks. -/
theorem Sound.uniform_of_end (h : Sound a x) (hend : x.next a = .ok none) (i : Nat) :
    a.Uniform x.partition i := by
  obtain ⟨hsplit, hplace⟩ := next_eq_none_iff.1 hend
  by_cases hi : i < x.partition.size
  · exact h.uniform hsplit i (by omega)
  · intro s hs
    rw [block_of_le (by omega)] at hs
    cases hs

/-! ## The loops end -/

/-- A round comes to the partition that it returns. -/
theorem exists_turns_of_refineFrom {fuel i n : Nat} {b : Bool} (h : Placed a.size kept r [] p)
    (hf : a.size ≤ i + fuel) (hq : a.refineFrom fuel i p = .ok q) :
    ∃ j, q.size ≤ j ∧
      ReflTransGen (Turn a) ⟨p, i, b, n⟩ ⟨q, j, b || decide (p.size < q.size), n⟩ := by
  induction fuel generalizing i p b with
  | zero =>
    cases hq
    have hle := h.size_le
    exact ⟨i, by omega, by simpa using ReflTransGen.refl⟩
  | succ fuel ih =>
    unfold refineFrom at hq
    by_cases hi : i < p.size
    · rw [if_pos hi] at hq
      obtain ⟨p', hp', hq⟩ := bind_eq_ok_iff.1 hq
      obtain ⟨hplaced, hsplit⟩ := placed_splitBlock h hi hp'
      obtain ⟨-, hround⟩ := placed_refineFrom (i := i + 1) hplaced (by omega) hq
      obtain ⟨j, hj, hturns⟩ := ih (b := b || decide (p.size < p'.size)) hplaced (by omega) hq
      have hle : p.size ≤ p'.size := by
        rcases hsplit with hlt | ⟨rfl, -⟩ <;> omega
      have hle' : p'.size ≤ q.size := by
        rcases hround with hlt | ⟨rfl, -⟩ <;> omega
      have hflag : (b || decide (p.size < p'.size) || decide (p'.size < q.size)) =
          (b || decide (p.size < q.size)) := by
        rw [Bool.or_assoc, ← Bool.decide_or]
        congr 2
        exact propext (by omega)
      rw [hflag] at hturns
      exact ⟨j, hj, .head ((turn_iff_of_lt hi).2 ⟨p', hp', rfl⟩) hturns⟩
    · rw [if_neg hi] at hq
      cases hq
      exact ⟨i, by omega, by simpa using ReflTransGen.refl⟩

/-- With enough fuel the loops end at the partition that the rounds settle on. -/
theorem exists_turns_of_settle {fuel n : Nat} (h : Placed a.size kept r [] p)
    (hf : a.size < p.size + fuel) (hq : a.settle fuel p = .ok q) :
    ∃ z, ReflTransGen (Turn a) ⟨p, 0, false, n⟩ z ∧ z.next a = .ok none ∧ z.partition = q := by
  induction fuel generalizing p n with
  | zero =>
    have hle := h.size_le
    omega
  | succ fuel ih =>
    obtain ⟨p', hp', hq⟩ := bind_eq_ok_iff.1 hq
    obtain ⟨hplaced, hround⟩ := placed_refineFrom (i := 0) h (Nat.le_add_left _ _) hp'
    obtain ⟨j, hj, hturns⟩ := exists_turns_of_refineFrom (n := n) (b := false) h (Nat.le_add_left _ _) hp'
    by_cases hsize : p'.size = p.size
    · rw [if_pos hsize] at hq
      cases hq
      have hfalse : (false || decide (p.size < q.size)) = false := by simp [hsize]
      exact ⟨_, hturns, next_eq_none_iff.2 ⟨hfalse, hj⟩, rfl⟩
    · rw [if_neg hsize] at hq
      have hlt : p.size < p'.size := by
        rcases hround with hlt | ⟨rfl, -⟩
        · exact hlt
        · exact absurd rfl hsize
      obtain ⟨z, hz, hend, hzq⟩ := ih (n := n + 1) hplaced (by omega) hq
      have hagain : Turn a ⟨p', j, false || decide (p.size < p'.size), n⟩ ⟨p', 0, false, n + 1⟩ :=
        (turn_iff_of_le hj).2 ⟨by simp [hlt], rfl⟩
      exact ⟨z, hturns.trans (.head hagain hz), hend, hzq⟩

/-! ## What the loops keep -/

/-- The blocks cut up the states with `member` without mixing acceptance, and each of these states, and
no other one, is sent to the block that holds it. -/
structure Cuts (a : Automaton) (member : State → Prop) (p : Partition) : Prop where
  nonempty : ∀ i, i < p.size → p.block i ≠ []
  disjoint : ∀ i j, i ≠ j → (p.block i).Disjoint (p.block j)
  exists_mem_block_iff : ∀ t, (∃ i, t ∈ p.block i) ↔ member t
  blockOf?_eq_some_iff : ∀ t i, p.blockOf? t = some i ↔ i < p.size ∧ t ∈ p.block i
  blockOf?_eq_none_iff : ∀ t, p.blockOf? t = none ↔ ¬member t
  accepting_eq : ∀ i, ∀ t ∈ p.block i, ∀ u ∈ p.block i, a.accepting t = a.accepting u

theorem Sound.cuts (h : Sound a x) : Cuts a (· ∈ a.kept) x.partition where
  nonempty := h.placed.nonempty
  disjoint i j hij t hi hj := hij (h.placed.eq_of_mem_block hi hj)
  exists_mem_block_iff t := ⟨fun ⟨_, hi⟩ => h.placed.kept_of_mem_block hi, h.placed.exists_mem_block⟩
  blockOf?_eq_some_iff t i := by
    rw [h.placed.blockOf?_eq_some_iff]
    exact ⟨fun ht => ⟨lt_size_of_mem_block ht, ht⟩, And.right⟩
  blockOf?_eq_none_iff t := by
    rw [Option.eq_none_iff_forall_ne_some]
    constructor
    · intro hnone ht
      obtain ⟨i, hi⟩ := h.placed.exists_mem_block ht
      exact hnone i (h.placed.blockOf?_eq_some_iff.2 hi)
    · intro ht i hi
      exact ht (h.placed.kept_of_mem_block (h.placed.blockOf?_eq_some_iff.1 hi))
  accepting_eq := h.placed.related

/-- There are no more rounds than kept states. -/
theorem Sound.rounds_le (h : Sound a x) : x.rounds ≤ a.kept.size := by
  have hblocks := h.rounds_add_split_le
  have hkept := h.placed.size_le_length (l := a.kept.toList) fun _ => OrderedSet.mem_toList.2
  have hsize : a.kept.size = a.kept.toList.length := rfl
  omega

/-- Wherever the loops of the refinement come to, the blocks cut up the live states and the initial one,
no more rounds have begun than there are such states, and a turn that changes the blocks adds some.  The
loops end, and then the members of each block share their signature. -/
theorem refining_ends (hw : a.WellFormed) (hd : a.isDeterministic = true) (hf : a.Forward)
    (hs : a.initial = some s) :
    (∀ t, t ∈ a.kept ↔ t = s ∨ t ∈ a.live) ∧
      (∀ x, Reached a x → Cuts a (· ∈ a.kept) x.partition ∧ x.rounds ≤ a.kept.size ∧
        ∀ y, Turn a x y → y.partition = x.partition ∨ x.partition.size < y.partition.size) ∧
      ∃ z, Reached a z ∧ z.next a = .ok none ∧
        a.settle a.size a.initialPartition = .ok z.partition ∧
        ∀ i, ∃ σ, ∀ t ∈ z.partition.block i, a.signature z.partition t = .ok σ := by
  refine ⟨fun t => mem_kept_iff hs, fun x hx => ?_, ?_⟩
  · have hsound := hx.sound hw hs
    exact ⟨hsound.cuts, hsound.rounds_le, fun y hxy => (hsound.turn hxy).2⟩
  · have hx := (isDeterministic_iff hf).1 hd
    obtain ⟨p, hp, -⟩ := exists_settled hw hx hs
    obtain ⟨z, hz, hend, rfl⟩ := exists_turns_of_settle (n := 1) (placed_initialPartition hw)
      (size_lt_initialPartition hw hs) hp
    have huniform := (Reached.sound hw hs hz).uniform_of_end hend
    refine ⟨z, hz, hend, hp, fun i => ⟨a.blockMoves z.partition i, fun t ht => ?_⟩⟩
    rw [signature_eq (hx t), (huniform i).blockMoves_eq ht]

/-- Three letters in a row, so that the states differ in how many are still to come. -/
def threeLetters : Automaton where
  nodes := #[
    { name := "S0", arrows := .ofList [⟨.symbol 'a', 1⟩] },
    { name := "S1", arrows := .ofList [⟨.symbol 'a', 2⟩] },
    { name := "S2", arrows := .ofList [⟨.symbol 'a', 3⟩] },
    { name := "S3", accepting := true }]
  initial := some 0

/-- The loops tell the four states apart. -/
theorem refining_ends_threeLetters :
    threeLetters.WellFormed ∧ threeLetters.isDeterministic = true ∧ threeLetters.Forward ∧
      threeLetters.initial = some 0 ∧
      ∃ z, Reached threeLetters z ∧ z.next threeLetters = .ok none ∧
        z.partition.blocks = #[[3], [2], [1], [0]] ∧ z.rounds ≤ 4 ∧
        z.partition.blockOf? 0 = some 3 := by
  have hw : threeLetters.WellFormed := by decide
  have hd : threeLetters.isDeterministic = true := by decide
  have hf : threeLetters.Forward := by decide
  obtain ⟨-, hreached, z, hz, hend, hsettle, -⟩ := refining_ends hw hd hf rfl
  have hok : threeLetters.settle threeLetters.size threeLetters.initialPartition =
      .ok ⟨#[[3], [2], [1], [0]], #[some 3, some 2, some 1, some 0]⟩ := by rfl
  have hp := Except.ok.inj (hsettle.symm.trans hok)
  obtain ⟨hcuts, hrounds, -⟩ := hreached z hz
  have hzero : (0 : State) ∈ z.partition.block 3 := by
    rw [hp]
    exact List.mem_singleton_self 0
  refine ⟨hw, hd, hf, rfl, z, hz, hend, by rw [hp], hrounds, ?_⟩
  exact (hcuts.blockOf?_eq_some_iff 0 3).2 ⟨by rw [hp]; decide, hzero⟩

end Refining

end PatternAutomata
