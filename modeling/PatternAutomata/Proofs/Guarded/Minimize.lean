import PatternAutomata.Proofs.Guarded.Determinize
import PatternAutomata.Proofs.Minimize

/-!
# Guarded minimization

Minimizing looks up the block of each state that it passes, the members of each block, and the first
member of each block in the end.  A state always has its place among the blocks, which are as many as
there are numbers in use (`Placed`), so every lookup succeeds:

    splitBlock a p i = served (a.splitBlock p i)                                           (splitBlock_eq)
    a is well formed and deterministic → minimize a = served a.minimize                    (minimize_eq)

What is left to go wrong is a label that runs downwards, which `minimize` itself reports.
-/

namespace PatternAutomata.Guarded

open StrictTotal

variable {ε : Type}

/-! ## Blocks -/

/-- Adds a block at the end, which takes its members from where they were. -/
def push (p : Partition) (block : List State) : Except (Stop ε) Partition := do
  let places ← block.foldlM (fun places s => store places s (some p.blocks.size)) p.places
  .ok ⟨p.blocks.push block, places⟩

/-- Splits the block at a place into groups: the first one stays there, the others go to the
end. -/
def split (p : Partition) (i : Nat) : List (List State) → Except (Stop ε) Partition
  | [] => .ok p
  | first :: others => do
    let blocks ← store p.blocks i first
    others.foldlM push ⟨blocks, p.places⟩

variable {p : Partition} {i n : Nat}

theorem push_eq {block : List State} (h : ∀ s ∈ block, s < p.places.size) :
    push (ε := ε) p block = .ok (p.push block) := by
  have hplaces := foldlM_eq_ok (P := fun places => places.size = p.places.size) rfl fun s hs places hp =>
    ⟨store_eq (ε := ε) (hp.symm ▸ h s hs) (some p.blocks.size), (Array.size_setIfInBounds ..).trans hp⟩
  unfold push
  rw [hplaces]
  rfl

theorem foldlM_push_eq {groups : List (List State)} (h : ∀ g ∈ groups, ∀ s ∈ g, s < p.places.size) :
    groups.foldlM push p = (.ok (groups.foldl Partition.push p) : Except (Stop ε) Partition) :=
  foldlM_eq_ok (P := fun q => q.places.size = p.places.size) rfl fun g hg q hq =>
    ⟨push_eq fun s hs => hq.symm ▸ h g hg s hs, (Partition.size_places_push q g).trans hq⟩

theorem split_eq (hi : i < p.size) {groups : List (List State)}
    (h : ∀ g ∈ groups, ∀ s ∈ g, s < p.places.size) :
    split (ε := ε) p i groups = .ok (p.split i groups) := by
  cases groups with
  | nil => rfl
  | cons first others =>
    rw [split, store_eq hi, ok_bind]
    exact foldlM_push_eq fun g hg => h g (List.mem_cons_of_mem first hg)

theorem fetch_places_eq {s : State} (hs : s < p.places.size) :
    fetch (ε := ε) p.places s = .ok (p.blockOf? s) := by
  rw [fetch_eq (Array.getElem?_eq_getElem hs), Partition.blockOf?, Array.getElem?_eq_getElem hs]
  rfl

theorem fetch_blocks_eq (hi : i < p.size) : fetch (ε := ε) p.blocks i = .ok (p.block i) := by
  rw [fetch_eq (Array.getElem?_eq_getElem hi), Partition.block, Array.getElem?_eq_getElem hi]
  rfl

/-! ## Refinement -/

/-- The span of an arrow, if it has one, with the block it leads to, if there is one. -/
def blockSpan (p : Partition) (r : Arrow) : Except (Stop ε) (Option (Span Nat)) :=
  match r.label.bounds? with
  | none => .ok none
  | some (lo, hi) => do
    let b ← fetch p.places r.dest
    .ok (b.map fun b => ⟨lo, hi, b⟩)

/-- Where the labels of a state lead, in terms of blocks. -/
def signature (a : Automaton) (p : Partition) (s : State) : Except (Stop ε) Signature := do
  let rs ← arrows a s
  let spans ← rs.mapM (blockSpan p)
  coalesce (sort (spans.filterMap id))

/-- Splits the block at a place by signature. -/
def splitBlock (a : Automaton) (p : Partition) (i : Nat) : Except (Stop ε) Partition := do
  let block ← fetch p.blocks i
  if block.length ≤ 1 then .ok p
  else do
    let signatures ← block.mapM (signature a p)
    split p i (Automaton.groupBySignature (signatures.zip block))

/-- One round over all blocks from place `i` on, the new ones included. -/
def refineFrom (a : Automaton) : Nat → Nat → Partition → Except (Stop ε) Partition
  | 0, _, p => .ok p
  | fuel + 1, i, p =>
    if i < p.size then do
      let q ← splitBlock a p i
      refineFrom a fuel (i + 1) q
    else .ok p

/-- Rounds until one splits no block. -/
def settle (a : Automaton) : Nat → Partition → Except (Stop ε) Partition
  | 0, p => .ok p
  | fuel + 1, p => do
    let q ← refineFrom a a.size 0 p
    if q.size = p.size then .ok q else settle a fuel q

variable {a : Automaton}

theorem signature_eq (hw : a.WellFormed) {s : State} (hs : s < a.size) (hp : p.places.size = a.size) :
    signature (ε := ε) a p s = served (a.signature p s) := by
  have hspan : ∀ r ∈ a.arrows s, blockSpan (ε := ε) p r =
      .ok (r.label.bounds?.bind fun b => (p.blockOf? r.dest).map fun i => ⟨b.1, b.2, i⟩) := by
    intro r hr
    unfold blockSpan
    cases r.label.bounds? with
    | none => rfl
    | some b =>
      dsimp only
      rw [fetch_places_eq (hp.symm ▸ hw.dest_lt s r hr)]
      rfl
  have hspans : (a.arrows s).filterMap (fun r => r.label.bounds?.bind fun b =>
      (p.blockOf? r.dest).map fun i => (⟨b.1, b.2, i⟩ : Span Nat)) = a.blockSpans p s := by
    refine List.filterMap_congr fun r _ => ?_
    cases p.blockOf? r.dest <;> rfl
  unfold signature
  rw [arrows_eq hs, ok_bind, mapM_eq_ok hspan, ok_bind, List.filterMap_map]
  refine (congrArg (fun spans => coalesce (sort spans)) hspans).trans (mapM_mapError fun m _ => ?_)
  cases Label.ofBounds m.lo m.hi <;> rfl

section Rounds

variable {kept : State → Prop} {r : State → State → Prop} (hw : a.WellFormed)
include hw

theorem splitBlock_eq (h : Partition.Placed a.size kept r [] p) (hi : i < p.size) :
    splitBlock (ε := ε) a p i = served (a.splitBlock p i) := by
  have hmem : ∀ s ∈ p.block i, s < a.size := fun s hs => h.lt hs
  have hsignatures : (p.block i).mapM (signature (ε := ε) a p) =
      served ((p.block i).mapM (a.signature p)) :=
    mapM_mapError fun s hs => signature_eq hw (hmem s hs) h.size
  have hparts := Automaton.parts_groupBySignature (a.signatureOf p) (p.block i)
  unfold splitBlock Automaton.splitBlock
  rw [fetch_blocks_eq hi, ok_bind]
  dsimp only
  split
  · rfl
  · rw [hsignatures]
    cases hm : (p.block i).mapM (a.signature p) with
    | error e => rfl
    | ok signatures =>
      cases Automaton.signatures_eq hm
      rw [served, Except.mapError, ok_bind, ok_bind, Automaton.zip_map_self]
      exact split_eq hi fun g hg s hs => h.size.symm ▸ hmem s ((hparts.mem_iff s).2 ⟨g, hg, hs⟩)

theorem refineFrom_eq (h : Partition.Placed a.size kept r [] p) (fuel i : Nat) :
    refineFrom (ε := ε) a fuel i p = served (a.refineFrom fuel i p) := by
  induction fuel generalizing i p with
  | zero => rfl
  | succ fuel ih =>
    unfold refineFrom Automaton.refineFrom
    by_cases hi : i < p.size
    · rw [if_pos hi, if_pos hi, splitBlock_eq hw h hi]
      cases hq : a.splitBlock p i with
      | error e => rfl
      | ok q =>
        obtain ⟨⟨hplaced, -⟩, -⟩ := Automaton.splitBlock_spec (Q := fun _ => True)
          (fun _ _ _ _ _ => trivial) h trivial hi hq
        exact ih hplaced (i + 1)
    · rw [if_neg hi, if_neg hi]
      rfl

theorem settle_eq (h : Partition.Placed a.size kept r [] p) (fuel : Nat) :
    settle (ε := ε) a fuel p = served (a.settle fuel p) := by
  induction fuel generalizing p with
  | zero => rfl
  | succ fuel ih =>
    unfold settle Automaton.settle Automaton.refine
    rw [refineFrom_eq hw h]
    cases hq : a.refineFrom a.size 0 p with
    | error e => rfl
    | ok q =>
      obtain ⟨⟨hplaced, -⟩, -⟩ := Automaton.refineFrom_spec (Q := fun _ => True)
        (fun _ _ _ _ _ => trivial) h trivial (Nat.le_add_left a.size 0) hq
      show (if q.size = p.size then .ok q else settle a fuel q) =
        served (if q.size = p.size then .ok q else a.settle fuel q)
      split
      · rfl
      · exact ih hplaced

end Rounds

/-! ## The result -/

/-- The accepting ones of some states and the others, leaving out an empty block. -/
def splitByAcceptance (a : Automaton) (members : List State) : Except (Stop ε) (List (List State)) := do
  let flags ← members.mapM (accepting a)
  let flagged := flags.zip members
  let accepted := (flagged.filter fun m => m.1).map Prod.snd
  let rejected := (flagged.filter fun m => !m.1).map Prod.snd
  .ok ([accepted, rejected].filter fun b => !b.isEmpty)

/-- The moves of a block, for which its first member speaks.  Each block has a place for its state. -/
def blockMoves (a : Automaton) (p : Partition) (_ : Unit) (i : Nat) :
    Except (Stop ε) (Unit × List (Label × Nat)) := do
  let block ← fetch p.blocks i
  let s ← fetch block.toArray 0
  let row ← signature a p s
  row.forM fun m => demand (m.2 < p.size) (.outOfBounds m.2 p.size)
  .ok ((), row)

/-- Whether a block has an accepting member. -/
def acceptsBlock (a : Automaton) (p : Partition) (i : Nat) : Except (Stop ε) Bool := do
  let block ← fetch p.blocks i
  block.anyM (accepting a)

/-- The automaton of the blocks. -/
def quotient (a : Automaton) (p : Partition) (first : Nat) : Except (Stop ε) Automaton :=
  explore (fun i => OrderedSet.ofList (p.block i)) (acceptsBlock a p) (blockMoves a p) p.size () first

/-- The least deterministic automaton for the language of a deterministic one. -/
def minimize (a : Automaton) : Except (Stop ε) Automaton := do
  demand (a.isDeterministic = true) (.misuse .nondeterministic)
  match a.initial with
  | none => .ok .empty
  | some s => do
    let members ← live a
    demand (s < a.size) (.outOfBounds s a.size)
    let groups ← splitByAcceptance a ((OrderedSet.ofList [s]).union members).toList
    let p ← groups.foldlM push (.empty a.size)
    let p ← settle a a.size p
    let block ← fetch p.places s
    match block with
    | none => .error (.panic .unreachable)
    | some first => quotient a p first

theorem splitByAcceptance_eq {members : List State} (h : ∀ s ∈ members, s < a.size) :
    splitByAcceptance (ε := ε) a members = .ok (a.splitByAcceptance members) := by
  unfold splitByAcceptance
  rw [mapM_eq_ok fun s hs => accepting_eq (h s hs), ok_bind, Automaton.zip_map_self]
  dsimp only
  rw [List.filter_map, List.filter_map, List.map_map, List.map_map]
  simp [Function.comp_def, Automaton.splitByAcceptance]

section Quotient

variable {r : State → State → Prop} (hw : a.WellFormed)
  (h : Partition.Placed a.size (· ∈ a.kept) r [] p)
include hw h

theorem blockMoves_eq (u : Unit) (hi : i < p.size) :
    blockMoves (ε := ε) a p u i = served (a.quotientMoves p u i) := by
  obtain ⟨s, rest, hb⟩ := List.exists_cons_of_ne_nil (h.nonempty i hi)
  have hs : s ∈ p.block i := hb ▸ List.mem_cons_self
  have hfirst : fetch (ε := ε) (s :: rest).toArray 0 = .ok s := fetch_eq rfl
  unfold blockMoves Automaton.quotientMoves
  rw [fetch_blocks_eq hi, ok_bind, hb, hfirst, ok_bind, signature_eq hw (h.lt hs) h.size]
  dsimp only
  cases hrow : a.signature p s with
  | error e => rfl
  | ok row =>
    have hmoves : a.blockMoves p i = row := by
      rw [(Automaton.signature_eq_ok_iff.1 hrow).1, Automaton.blockMoves, hb]
    have htargets : ∀ m ∈ row, m.2 < p.size := fun m hm =>
      Automaton.lt_size_of_leads h ⟨m, hmoves.symm ▸ hm, rfl⟩
    show (row.forM fun m => demand (m.2 < p.size) (.outOfBounds m.2 p.size)) >>= _ = _
    rw [forM_eq_ok fun m hm => demand_eq (htargets m hm)]
    rfl

theorem quotient_eq {first : Nat} (hfirst : first < p.size) :
    quotient (ε := ε) a p first = served (a.quotient p first) := by
  have hacc : ∀ i, i < p.size → acceptsBlock (ε := ε) a p i = .ok ((p.block i).any a.accepting) := by
    intro i hi
    unfold acceptsBlock
    rw [fetch_blocks_eq hi]
    exact anyM_eq_ok fun s hs => accepting_eq (h.lt hs)
  have hmoves : ∀ u i, i < p.size →
      blockMoves (ε := ε) a p u i = served (a.quotientMoves p u i) :=
    fun u i hi => blockMoves_eq hw h u hi
  have hrow : ∀ u i u' row, i < p.size → a.quotientMoves p u i = .ok (u', row) →
      ∀ m ∈ row, m.2 < p.size := by
    intro u i u' row _ hrow m hm
    obtain ⟨rfl, -⟩ := Automaton.quotientMoves_eq_ok_iff.1 hrow
    exact Automaton.lt_size_of_leads h ⟨m, hm, rfl⟩
  have hexplore := explore_eq hacc hmoves hrow (fun i => OrderedSet.ofList (p.block i)) hfirst p.size ()
  unfold quotient
  rw [hexplore, Automaton.quotient_eq_explore, served, mapError_bind]
  rfl

end Quotient

theorem minimize_eq (hw : a.WellFormed) (hd : a.isDeterministic = true) :
    minimize (ε := ε) a = served a.minimize := by
  unfold minimize Automaton.minimize
  rw [demand_eq hd, ok_bind, hd]
  cases hs : a.initial with
  | none => rfl
  | some s =>
    have hkept : (OrderedSet.ofList [s]).union a.live = a.kept := by
      unfold Automaton.kept
      rw [hs]
      rfl
    have hmembers : ∀ s ∈ a.kept.toList, s < a.size := fun s hs => Automaton.lt_size_of_mem_kept hw hs
    have hgroups : ∀ g ∈ a.splitByAcceptance a.kept.toList, ∀ s ∈ g,
        s < (Partition.empty a.size).places.size := by
      intro g hg s hs
      have hparts := Automaton.parts_splitByAcceptance a a.kept.toList
      simpa [Partition.empty] using hmembers s ((hparts.mem_iff s).2 ⟨g, hg, hs⟩)
    have hinitial := Automaton.placed_initialPartition hw
    dsimp only
    rw [live_eq hw, ok_bind, demand_eq (hw.initial_lt s hs), ok_bind, hkept,
      splitByAcceptance_eq hmembers, ok_bind, foldlM_push_eq hgroups, ok_bind]
    show (settle a a.size a.initialPartition >>= _) = served (a.settle a.size a.initialPartition >>= _)
    rw [settle_eq hw hinitial]
    cases hp : a.settle a.size a.initialPartition with
    | error e => rfl
    | ok p =>
      obtain ⟨⟨h, -⟩, -⟩ := Automaton.settle_spec (Q := fun _ => True) (fun _ _ _ _ _ => trivial)
        hinitial trivial (Automaton.size_lt_initialPartition hw hs) hp
      obtain ⟨first, hfirst⟩ := h.exists_mem_block (Automaton.mem_kept.2 (.inl hs))
      have hblock := h.blockOf?_eq_some_iff.2 hfirst
      have hplace : s < p.places.size := h.size.symm ▸ hw.initial_lt s hs
      show (fetch p.places s >>= _) = served (match p.blockOf? s with
        | none => .ok .empty
        | some first => a.quotient p first)
      rw [fetch_places_eq hplace, ok_bind, hblock]
      exact quotient_eq hw h (Partition.lt_size_of_mem_block hfirst)

end PatternAutomata.Guarded
