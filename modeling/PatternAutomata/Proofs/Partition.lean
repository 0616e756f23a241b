import Mathlib.Data.Fintype.Card
import PatternAutomata.Automaton.Minimize

/-!
# Blocks in place

Splitting a block first shrinks it and then adds the other groups one by one, so in between a state
may still be sent to a block that has lost it.  `Placed rest p` says what holds all the while: the
groups in `rest` wait for their place, and every state outside of them is sent to the block that
holds it.

    Placed (g :: rest) p → Placed rest (p.push g)                              (Placed.push)
    Placed [] p → block i shrinks to its first part → Placed others p               (Placed.shrink)
    Placed [] p → groups are the parts of block i → Placed [] (p.split i groups)   (Placed.split)

There are never more blocks than states that are kept (`Placed.size_le_length`).
-/

namespace PatternAutomata

/-- Groups without a common member that make up the members. -/
structure Parts (members : List State) (groups : List (List State)) : Prop where
  nonempty : ∀ g ∈ groups, g ≠ []
  disjoint : groups.Pairwise List.Disjoint
  mem_iff : ∀ s, s ∈ members ↔ ∃ g ∈ groups, s ∈ g

theorem Parts.mem_cons_iff {members first : List State} {others : List (List State)}
    (h : Parts members (first :: others)) (s : State) :
    s ∈ members ↔ s ∈ first ∨ ∃ g ∈ others, s ∈ g := by
  rw [h.mem_iff, List.exists_mem_cons_iff]

namespace Partition

/-! ## One more block -/

@[simp] theorem size_push (p : Partition) (g : List State) : (p.push g).size = p.size + 1 := by
  simp [push, size]

theorem block_of_le {p : Partition} {i : Nat} (h : p.size ≤ i) : p.block i = [] := by
  unfold block
  rw [Array.getElem?_eq_none h]
  rfl

theorem lt_size_of_mem_block {p : Partition} {i : Nat} {s : State} (h : s ∈ p.block i) :
    i < p.size := by
  apply Nat.lt_of_not_le
  intro hi
  rw [block_of_le hi] at h
  cases h

theorem block_push (p : Partition) (g : List State) (i : Nat) :
    (p.push g).block i = if i = p.size then g else p.block i := by
  unfold block push size
  rw [Array.getElem?_push]
  split <;> rfl

theorem getElem?_foldl_setIfInBounds (g : List State) (i : Nat) (places : Array (Option Nat))
    (s : State) :
    (g.foldl (fun places s => places.setIfInBounds s (some i)) places)[s]? =
      if s ∈ g ∧ s < places.size then some (some i) else places[s]? := by
  induction g generalizing places with
  | nil => simp
  | cons t g ih =>
    rw [List.foldl_cons, ih, Array.size_setIfInBounds, Array.getElem?_setIfInBounds]
    by_cases hg : s ∈ g ∧ s < places.size
    · rw [if_pos hg, if_pos ⟨List.mem_cons_of_mem _ hg.1, hg.2⟩]
    · rw [if_neg hg]
      by_cases e : t = s
      · subst e
        by_cases hs : t < places.size
        · rw [if_pos rfl, if_pos hs, if_pos ⟨List.mem_cons_self, hs⟩]
        · rw [if_pos rfl, if_neg hs, if_neg fun h => hs h.2, Array.getElem?_eq_none (Nat.le_of_not_lt hs)]
      · rw [if_neg e, if_neg]
        rintro ⟨h, hs⟩
        rcases List.mem_cons.1 h with h | h
        · exact e h.symm
        · exact hg ⟨h, hs⟩

theorem size_places_push (p : Partition) (g : List State) :
    (p.push g).places.size = p.places.size := by
  have key : ∀ (g : List State) (i : Nat) (places : Array (Option Nat)),
      (g.foldl (fun places s => places.setIfInBounds s (some i)) places).size = places.size := by
    intro g i
    induction g with
    | nil => exact fun _ => rfl
    | cons s g ih => exact fun places => (ih _).trans (Array.size_setIfInBounds ..)
  exact key g _ _

theorem blockOf?_push {p : Partition} {g : List State} (hg : ∀ s ∈ g, s < p.places.size)
    (s : State) : (p.push g).blockOf? s = if s ∈ g then some p.size else p.blockOf? s := by
  unfold blockOf? push
  rw [getElem?_foldl_setIfInBounds]
  by_cases h : s ∈ g
  · rw [if_pos ⟨h, hg s h⟩, if_pos h]
    rfl
  · rw [if_neg fun h' => h h'.1, if_neg h]

/-! ## What stays true -/

/-- The blocks hold related states below `n`, and the members of the groups in `rest`, which have
no block yet, make up for what is kept and in no block. -/
structure Placed (n : Nat) (kept : State → Prop) (r : State → State → Prop)
    (rest : List (List State)) (p : Partition) : Prop where
  size : p.places.size = n
  nonempty : ∀ i, i < p.size → p.block i ≠ []
  blockOf? : ∀ s, (∀ g ∈ rest, s ∉ g) → ∀ i, p.blockOf? s = some i ↔ s ∈ p.block i
  related : ∀ i, ∀ s ∈ p.block i, ∀ t ∈ p.block i, r s t
  waiting : ∀ g ∈ rest, g ≠ [] ∧ (∀ s ∈ g, s < n ∧ ∀ i, s ∉ p.block i) ∧ ∀ s ∈ g, ∀ t ∈ g, r s t
  disjoint : rest.Pairwise List.Disjoint
  kept : ∀ s, kept s ↔ (∃ i, s ∈ p.block i) ∨ ∃ g ∈ rest, s ∈ g

variable {n : Nat} {kept : State → Prop} {r : State → State → Prop} {rest : List (List State)}
  {p : Partition}

/-- The next group gets its place. -/
theorem Placed.push {g : List State} (h : Placed n kept r (g :: rest) p) :
    Placed n kept r rest (p.push g) := by
  obtain ⟨hne, hg, hr⟩ := h.waiting g List.mem_cons_self
  obtain ⟨hdis, hrest⟩ := List.pairwise_cons.1 h.disjoint
  have hblock : ∀ s i, s ∈ (p.push g).block i ↔ s ∈ p.block i ∨ i = p.size ∧ s ∈ g := by
    intro s i
    rw [block_push]
    split
    · next e => simp [e, block_of_le (Nat.le_refl p.size)]
    · next e => simp [e]
  refine ⟨by rw [size_places_push, h.size], fun i hi => ?_, fun s hs i => ?_, fun i s hs t ht => ?_,
    fun g' hg' => ?_, hrest, fun s => ?_⟩
  · rw [block_push]
    split
    · exact hne
    · rw [size_push] at hi
      exact h.nonempty i (by omega)
  · rw [blockOf?_push fun s hs => by rw [h.size]; exact (hg s hs).1, hblock]
    by_cases hsg : s ∈ g
    · simp [hsg, (hg s hsg).2 i, eq_comm]
    · have := h.blockOf? s (by simpa [hsg] using hs) i
      simpa [hsg] using this
  · rcases (hblock s i).1 hs with hs | ⟨e, hs⟩
    · rcases (hblock t i).1 ht with ht | ⟨e, -⟩
      · exact h.related i s hs t ht
      · exact absurd (lt_size_of_mem_block hs) (e ▸ Nat.lt_irrefl _)
    · rcases (hblock t i).1 ht with ht | ⟨-, ht⟩
      · exact absurd (lt_size_of_mem_block ht) (e ▸ Nat.lt_irrefl _)
      · exact hr s hs t ht
  · obtain ⟨hne', hg'', hr'⟩ := h.waiting g' (List.mem_cons_of_mem _ hg')
    refine ⟨hne', fun s hs => ⟨(hg'' s hs).1, fun i hi => ?_⟩, hr'⟩
    rcases (hblock s i).1 hi with hi | ⟨-, hi⟩
    · exact (hg'' s hs).2 i hi
    · exact hdis g' hg' hi hs
  · rw [h.kept s]
    simp only [hblock, List.mem_cons, exists_or, or_and_right, exists_eq_left, or_assoc]

theorem Placed.foldl_push (h : Placed n kept r rest p) :
    Placed n kept r [] (rest.foldl Partition.push p) := by
  induction rest generalizing p with
  | nil => exact h
  | cons g rest ih => exact ih h.push

theorem size_foldl_push (rest : List (List State)) (p : Partition) :
    (rest.foldl Partition.push p).size = p.size + rest.length := by
  induction rest generalizing p with
  | nil => rfl
  | cons g rest ih =>
    rw [List.foldl_cons, ih, size_push, List.length_cons]
    omega

/-- A block is a group that has got its place, or was there before. -/
theorem block_foldl_push (rest : List (List State)) (p : Partition) (i : Nat) :
    (rest.foldl Partition.push p).block i ∈ rest ∨
      (rest.foldl Partition.push p).block i = p.block i := by
  induction rest generalizing p with
  | nil => exact .inr rfl
  | cons g rest ih =>
    rw [List.foldl_cons]
    rcases ih (p.push g) with hmem | heq
    · exact .inl (List.mem_cons_of_mem _ hmem)
    · rw [heq, block_push]
      split
      · exact .inl List.mem_cons_self
      · exact .inr rfl

/-- The parts of what is kept, each with related members, can take their places. -/
theorem placed_empty {members : List State} {groups : List (List State)}
    (h : Parts members groups) (hn : ∀ s ∈ members, s < n)
    (hr : ∀ g ∈ groups, ∀ s ∈ g, ∀ t ∈ g, r s t) :
    Placed n (· ∈ members) r groups (Partition.empty n) := by
  have hblock : ∀ i, (Partition.empty n).block i = [] := fun i => block_of_le (Nat.zero_le i)
  refine ⟨by simp [Partition.empty], fun i hi => absurd hi (Nat.not_lt_zero i), fun s _ i => ?_,
    fun i s hs => ?_, fun g hg => ⟨h.nonempty g hg, fun s hs => ⟨?_, ?_⟩, hr g hg⟩, h.disjoint,
    fun s => ?_⟩
  · rw [hblock]
    by_cases hs : s < n <;> simp [Partition.blockOf?, Partition.empty, hs]
  · rw [hblock] at hs
    cases hs
  · exact hn s ((h.mem_iff s).2 ⟨g, hg, hs⟩)
  · intro i
    rw [hblock]
    exact List.not_mem_nil
  · simp only [hblock, List.not_mem_nil, exists_false, false_or]
    exact h.mem_iff s

/-! ## Splitting a block -/

theorem block_setIfInBounds {blocks : Array (List State)} {places : Array (Option Nat)} {i : Nat}
    (hi : i < blocks.size) (g : List State) (j : Nat) :
    (Partition.mk (blocks.setIfInBounds i g) places).block j =
      if j = i then g else (Partition.mk blocks places).block j := by
  unfold block
  rw [Array.getElem?_setIfInBounds]
  by_cases e : j = i
  · subst e
    simp [hi]
  · simp [e, Ne.symm e]

theorem Placed.lt (h : Placed n kept r [] p) {i : Nat} {s : State} (hs : s ∈ p.block i) :
    s < n := by
  have hb := (h.blockOf? s (by simp) i).2 hs
  apply Nat.lt_of_not_le
  intro hn
  unfold Partition.blockOf? at hb
  rw [Array.getElem?_eq_none (h.size.symm ▸ hn)] at hb
  cases hb

theorem Placed.eq_of_mem_block (h : Placed n kept r [] p) {i j : Nat} {s : State}
    (hi : s ∈ p.block i) (hj : s ∈ p.block j) : i = j := by
  have e := (h.blockOf? s (by simp) i).2 hi
  rw [(h.blockOf? s (by simp) j).2 hj] at e
  exact (Option.some.inj e).symm

theorem Placed.blockOf?_eq_some_iff (h : Placed n kept r [] p) {i : Nat} {s : State} :
    p.blockOf? s = some i ↔ s ∈ p.block i := h.blockOf? s (by simp) i

theorem Placed.exists_mem_block (h : Placed n kept r [] p) {s : State} (hs : kept s) :
    ∃ i, s ∈ p.block i := by
  rcases (h.kept s).1 hs with hb | ⟨g, hg, -⟩
  · exact hb
  · cases hg

theorem Placed.kept_of_mem_block (h : Placed n kept r [] p) {i : Nat} {s : State}
    (hs : s ∈ p.block i) : kept s := (h.kept s).2 (.inl ⟨i, hs⟩)

/-- The members of a block that shrinks to its first part. -/
theorem mem_block_setIfInBounds {i : Nat} (hi : i < p.size) {first : List State}
    (hfirst : ∀ s ∈ first, s ∈ p.block i) {s : State} {j : Nat} :
    s ∈ (Partition.mk (p.blocks.setIfInBounds i first) p.places).block j ↔
      s ∈ p.block j ∧ (j = i → s ∈ first) := by
  rw [block_setIfInBounds hi]
  by_cases e : j = i
  · subst e
    rw [if_pos rfl]
    exact ⟨fun hs => ⟨hfirst s hs, fun _ => hs⟩, fun hs => hs.2 rfl⟩
  · rw [if_neg e]
    exact ⟨fun hs => ⟨hs, fun e' => absurd e' e⟩, And.left⟩

/-- A block shrinks to its first part, and the other parts wait. -/
theorem Placed.shrink (h : Placed n kept r [] p) {i : Nat} (hi : i < p.size) {first : List State}
    {others : List (List State)} (hg : Parts (p.block i) (first :: others)) :
    Placed n kept r others ⟨p.blocks.setIfInBounds i first, p.places⟩ := by
  obtain ⟨hdis, hothers⟩ := List.pairwise_cons.1 hg.disjoint
  have hparts := hg.mem_cons_iff
  have hother : ∀ g ∈ others, ∀ s ∈ g, s ∈ p.block i :=
    fun g hg' s hs => (hparts s).2 (.inr ⟨g, hg', hs⟩)
  have hmem : ∀ {s j}, s ∈ (Partition.mk (p.blocks.setIfInBounds i first) p.places).block j ↔
      s ∈ p.block j ∧ (j = i → s ∈ first) :=
    mem_block_setIfInBounds hi fun s hs => (hparts s).2 (.inl hs)
  refine
    { size := h.size
      nonempty := fun j hj => ?nonempty
      blockOf? := fun s hs j => ?blockOf
      related := fun j s hs t ht => h.related j s (hmem.1 hs).1 t (hmem.1 ht).1
      waiting := fun g hg' => ⟨hg.nonempty g (List.mem_cons_of_mem _ hg'),
        fun s hs => ⟨h.lt (hother g hg' s hs), fun j hj => ?waiting⟩,
        fun s hs t ht => h.related i s (hother g hg' s hs) t (hother g hg' t ht)⟩
      disjoint := hothers
      kept := fun s => ?kept }
  case nonempty =>
    rw [block_setIfInBounds hi]
    split
    · exact hg.nonempty first List.mem_cons_self
    · unfold Partition.size at hj
      rw [Array.size_setIfInBounds] at hj
      exact h.nonempty j hj
  case blockOf =>
    rw [hmem]
    refine (h.blockOf? s (by simp) j).trans ⟨fun hsj => ⟨hsj, ?_⟩, And.left⟩
    rintro rfl
    exact ((hparts s).1 hsj).resolve_right fun ⟨g, hg', hsg⟩ => hs g hg' hsg
  case waiting =>
    obtain ⟨hsj, hfirst⟩ := hmem.1 hj
    have e : j = i := h.eq_of_mem_block hsj (hother g hg' s hs)
    exact hdis g hg' (hfirst e) hs
  case kept =>
    rw [h.kept s]
    simp only [List.not_mem_nil, false_and, exists_false, or_false, hmem]
    constructor
    · rintro ⟨j, hj⟩
      by_cases e : j = i
      · subst e
        rcases (hparts s).1 hj with hs | hs
        · exact .inl ⟨j, hj, fun _ => hs⟩
        · exact .inr hs
      · exact .inl ⟨j, hj, fun e' => absurd e' e⟩
    · rintro (⟨j, hj, -⟩ | ⟨g, hg', hs⟩)
      · exact ⟨j, hj⟩
      · exact ⟨i, hother g hg' s hs⟩

/-- The first part stays where the block was, and the other parts take new places. -/
theorem Placed.split (h : Placed n kept r [] p) {i : Nat} (hi : i < p.size)
    {groups : List (List State)} (hg : Parts (p.block i) groups) :
    Placed n kept r [] (p.split i groups) := by
  cases groups with
  | nil => exact h
  | cons first others => exact (h.shrink hi hg).foldl_push

/-- A block after a split is one of the groups or was there before. -/
theorem block_split {i : Nat} (hi : i < p.size) (groups : List (List State)) (j : Nat) :
    (p.split i groups).block j ∈ groups ∨ (p.split i groups).block j = p.block j := by
  cases groups with
  | nil => exact .inr rfl
  | cons first others =>
    unfold split
    rcases block_foldl_push others ⟨p.blocks.setIfInBounds i first, p.places⟩ j with hmem | heq
    · exact .inl (List.mem_cons_of_mem _ hmem)
    · rw [heq, block_setIfInBounds hi]
      split
      · exact .inl List.mem_cons_self
      · exact .inr rfl

theorem size_split (p : Partition) (i : Nat) (first : List State) (others : List (List State)) :
    (p.split i (first :: others)).size = p.size + others.length := by
  unfold split
  rw [size_foldl_push, size, Array.size_setIfInBounds]
  rfl

/-- A block that is one part stays as it is. -/
theorem split_block_self {p : Partition} {i : Nat} (hi : i < p.size) :
    p.split i [p.block i] = p := by
  refine congrArg (fun blocks => Partition.mk blocks p.places) ?_
  unfold block
  apply Array.ext_getElem?
  intro j
  rw [Array.getElem?_setIfInBounds]
  split
  · next e =>
    subst e
    have hi' : i < p.blocks.size := hi
    rw [if_pos hi', Array.getElem?_eq_getElem hi']
    rfl
  · rfl

/-- Blocks have different first members, which are kept. -/
theorem Placed.size_le_length (h : Placed n kept r [] p) {l : List State} (hl : ∀ s, kept s → s ∈ l) :
    p.size ≤ l.length := by
  have hmem : ∀ i : Fin p.size, (p.block i).head (h.nonempty i i.2) ∈ p.block i :=
    fun i => List.head_mem _
  have hinj : Function.Injective fun i : Fin p.size => (p.block i).head (h.nonempty i i.2) := by
    intro i j e
    dsimp only at e
    exact Fin.ext (h.eq_of_mem_block (hmem i) (e ▸ hmem j))
  have hsub : List.ofFn (fun i : Fin p.size => (p.block i).head (h.nonempty i i.2)) ⊆ l := by
    intro s hs
    obtain ⟨i, rfl⟩ := (List.mem_ofFn' _ _).1 hs
    exact hl _ (h.kept_of_mem_block (hmem i))
  simpa using ((List.nodup_ofFn.2 hinj).subperm hsub).length_le

/-- What is kept lies below `n`. -/
theorem Placed.size_le (h : Placed n kept r [] p) : p.size ≤ n := by
  have hle := h.size_le_length (l := List.range n) fun s hs => by
    obtain ⟨i, hi⟩ := h.exists_mem_block hs
    exact List.mem_range.2 (h.lt hi)
  rwa [List.length_range] at hle

end Partition

end PatternAutomata
