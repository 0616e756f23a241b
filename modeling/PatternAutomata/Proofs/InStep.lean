import Mathlib.Data.List.Forall2
import PatternAutomata.Proofs.Exploration
import PatternAutomata.Proofs.Merge

/-!
# Explorations in step

Two graphs are explored in step when a one-to-one relation of keys relates the first keys, and the
moves of related keys lead under the same labels to related keys.  Numbers are given in the order in
which keys are met, so both explorations give related keys the same number:

    R first first' → R k k' → rows f k and g k' alike
      → Explored f first e → Explored g first' e' → InStep R e e'            (Explored.inStep)

What is then left of the keys in the automata are their origins (`InStep.toAutomaton_eq`).

Rows that are made from merged spans have no choice left in their labels, so they are alike as soon as
they lead to related keys over each character (`rowsAlike_of_mergedRow`).
-/

namespace PatternAutomata

open Relator

/-! ## Origins -/

/-- The node without its origin. -/
def Node.withoutOrigin (n : Node) : Node := { n with origin := none }

/-- The automaton without the origins of its states. -/
def Automaton.withoutOrigins (a : Automaton) : Automaton :=
  { a with nodes := a.nodes.map Node.withoutOrigin }

/-- The automaton with these origins in place of those of its states. -/
def Automaton.withOrigins (a : Automaton) (f : State → Option StateSet) : Automaton :=
  { a with nodes := a.nodes.mapIdx fun s n => { n with origin := f s } }

namespace Automaton

variable (a : Automaton) (s : State)

theorem getElem?_nodes_withOrigins (f : State → Option StateSet) :
    (a.withOrigins f).nodes[s]? = (a.nodes[s]?).map fun n => { n with origin := f s } := by
  simp [withOrigins]

/-- Only the origins of members count. -/
theorem withOrigins_congr {a : Automaton} {f g : State → Option StateSet}
    (h : ∀ s < a.size, f s = g s) : a.withOrigins f = a.withOrigins g := by
  refine congrArg (fun nodes => Automaton.mk nodes a.initial) (Array.ext_getElem? fun s => ?_)
  show (a.withOrigins f).nodes[s]? = (a.withOrigins g).nodes[s]?
  rw [getElem?_nodes_withOrigins, getElem?_nodes_withOrigins]
  by_cases hs : s < a.size
  · rw [h s hs]
  · rw [Array.getElem?_eq_none (Nat.le_of_not_lt hs)]
    rfl

@[simp] theorem withoutOrigins_withOrigins (f : State → Option StateSet) :
    (a.withOrigins f).withoutOrigins = a.withoutOrigins := by
  refine congrArg (fun nodes => Automaton.mk nodes a.initial) (Array.ext_getElem? fun s => ?_)
  rw [Array.getElem?_map, Array.getElem?_map, getElem?_nodes_withOrigins, Option.map_map]
  rfl

@[simp] theorem size_withoutOrigins : a.withoutOrigins.size = a.size := by
  simp [withoutOrigins, size]

@[simp] theorem initial_withoutOrigins : a.withoutOrigins.initial = a.initial := rfl

theorem getElem?_nodes_withoutOrigins :
    a.withoutOrigins.nodes[s]? = (a.nodes[s]?).map Node.withoutOrigin := by
  simp [withoutOrigins]

@[simp] theorem arrows_withoutOrigins : a.withoutOrigins.arrows s = a.arrows s := by
  unfold arrows
  rw [getElem?_nodes_withoutOrigins]
  cases a.nodes[s]? <;> rfl

@[simp] theorem accepting_withoutOrigins : a.withoutOrigins.accepting s = a.accepting s := by
  unfold accepting
  rw [getElem?_nodes_withoutOrigins]
  cases a.nodes[s]? <;> rfl

@[simp] theorem name_withoutOrigins : a.withoutOrigins.name s = a.name s := by
  unfold name
  rw [getElem?_nodes_withoutOrigins]
  cases a.nodes[s]? <;> rfl

theorem runFrom_withoutOrigins (w : List Char) :
    a.withoutOrigins.runFrom s w = a.runFrom s w := by
  induction w generalizing s with
  | nil => rfl
  | cons c w ih =>
    have hstep : a.withoutOrigins.step s c = a.step s c := by
      unfold step
      rw [arrows_withoutOrigins]
    rw [runFrom, runFrom, hstep]
    exact Option.bind_congr fun t _ => ih t

/-- Origins have no part in what is accepted. -/
@[simp] theorem accepts_withoutOrigins (w : List Char) :
    a.withoutOrigins.accepts w = a.accepts w := by
  unfold accepts run
  simp only [runFrom_withoutOrigins, initial_withoutOrigins, accepting_withoutOrigins]

end Automaton

/-! ## Related lists of keys -/

variable {κ κ' : Type} {R : κ → κ' → Prop}

theorem exists_getElem?_of_forall₂ {l : List κ} {l' : List κ'} (h : List.Forall₂ R l l') {i : Nat}
    {k : κ} (hk : l[i]? = some k) : ∃ k', l'[i]? = some k' ∧ R k k' := by
  induction h generalizing i with
  | nil => cases hk
  | @cons x x' l l' hx _ ih =>
    cases i with
    | zero =>
      cases hk
      exact ⟨x', rfl, hx⟩
    | succ i => exact ih hk

theorem getElem?_eq_some_iff_of_forall₂ (hR : BiUnique R) {l : List κ} {l' : List κ'}
    (h : List.Forall₂ R l l') {k : κ} {k' : κ'} (hk : R k k') (i : Nat) :
    l[i]? = some k ↔ l'[i]? = some k' := by
  induction h generalizing i with
  | nil => simp
  | cons hx _ ih =>
    cases i with
    | zero =>
      rw [List.getElem?_cons_zero, List.getElem?_cons_zero, Option.some.injEq, Option.some.injEq]
      exact rel_eq hR hx hk
    | succ i => exact ih i

namespace Exploration

/-! ## Rows -/

/-- Whether two rows have the same labels, in order, and lead to related keys. -/
def RowsAlike (R : κ → κ' → Prop) (row : List (Label × κ)) (row' : List (Label × κ')) : Prop :=
  List.Forall₂ (fun m m' => m.1 = m'.1 ∧ R m.2 m'.2) row row'

section MergedRows

variable [DecidableEq κ] [DecidableEq κ']

/-- Whether a row is made from merged spans. -/
def MergedRow (row : List (Label × κ)) : Prop :=
  ∃ l : List (Span κ), Span.Merged l ∧ row = l.map fun m => (m.label, m.target)

theorem MergedRow.exclusive {row : List (Label × κ)} (h : MergedRow row) :
    Label.Exclusive (row.map Prod.fst) := by
  obtain ⟨l, hl, rfl⟩ := h
  rw [List.map_map]
  exact hl.toSeparate.exclusive

theorem find?_eq_some_iff_of_row {l : List (Span κ)} (hl : Span.Merged l) {c : Char} {k : κ} :
    Span.find? l c = some k ↔
      ∃ m ∈ l.map fun m => (m.label, m.target), m.1.admits c = true ∧ m.2 = k := by
  rw [Span.find?_eq_some_iff hl.toSeparate]
  simp

/-- Where the moves of one merged row are matched by those of the other, the spans are. -/
theorem within_of_rows {l : List (Span κ)} {l' : List (Span κ')}
    (hl : Span.Merged l) (hl' : Span.Merged l')
    (h : ∀ c, ∀ m ∈ l.map fun m => (m.label, m.target), m.1.admits c = true →
      ∃ m' ∈ l'.map fun m => (m.label, m.target), m'.1.admits c = true ∧ R m.2 m'.2) :
    Span.Within R l l' := by
  intro c k hk
  obtain ⟨m, hm, hc, rfl⟩ := (find?_eq_some_iff_of_row hl).1 hk
  obtain ⟨m', hm', hc', hR⟩ := h c m hm hc
  exact ⟨m'.2, (find?_eq_some_iff_of_row hl').2 ⟨m', hm', hc', rfl⟩, hR⟩

/-- Merged rows that match each other's moves, character by character, are alike. -/
theorem rowsAlike_of_mergedRow {row : List (Label × κ)} {row' : List (Label × κ')} (hR : BiUnique R)
    (hrow : MergedRow row) (hrow' : MergedRow row')
    (h : ∀ c, ∀ m ∈ row, m.1.admits c = true → ∃ m' ∈ row', m'.1.admits c = true ∧ R m.2 m'.2)
    (h' : ∀ c, ∀ m' ∈ row', m'.1.admits c = true → ∃ m ∈ row, m.1.admits c = true ∧ R m.2 m'.2) :
    RowsAlike R row row' := by
  obtain ⟨l, hl, rfl⟩ := hrow
  obtain ⟨l', hl', rfl⟩ := hrow'
  have hspans := Span.forall₂_alike hR hl hl' (within_of_rows hl hl' h) (within_of_rows hl' hl h')
  refine List.rel_map (fun m m' hm => ⟨?_, hm.target⟩) hspans
  show m.label = m'.label
  rw [Span.label, Span.label, hm.lo, hm.hi]

end MergedRows

/-! ## Numbers in step -/

variable [StrictTotal κ] [StrictTotal κ']

/-- Whether two numberings number related keys alike. -/
def NumbersAlike (R : κ → κ' → Prop) (n : Numbering κ) (n' : Numbering κ') : Prop :=
  List.Forall₂ R n.keys.toList n'.keys.toList

variable {n : Numbering κ} {n' : Numbering κ'} {k : κ} {k' : κ'}

theorem NumbersAlike.add (hR : BiUnique R) (h : NumbersAlike R n n') (hk : R k k') :
    NumbersAlike R (n.add k) (n'.add k') := by
  have hmem : k ∈ n.keys ↔ k' ∈ n'.keys := by
    rw [← Array.mem_toList_iff, ← Array.mem_toList_iff]
    exact List.rel_mem hR hk h
  unfold NumbersAlike
  by_cases hkn : k ∈ n.keys
  · rw [Numbering.keys_add_of_mem hkn, Numbering.keys_add_of_mem (hmem.1 hkn)]
    exact h
  · rw [Numbering.keys_add_of_not_mem hkn, Numbering.keys_add_of_not_mem fun h => hkn (hmem.2 h),
      Array.toList_push, Array.toList_push]
    exact List.rel_append h (.cons hk .nil)

theorem NumbersAlike.find?_eq (hR : BiUnique R) (h : NumbersAlike R n n') (hk : R k k') :
    n.find? k = n'.find? k' := by
  apply Option.ext
  intro i
  rw [Numbering.find?_eq_some_iff, Numbering.find?_eq_some_iff, ← Array.getElem?_toList,
    ← Array.getElem?_toList]
  exact getElem?_eq_some_iff_of_forall₂ hR h hk i

variable {row : List (Label × κ)} {row' : List (Label × κ')}

theorem NumbersAlike.meet (hR : BiUnique R) (h : NumbersAlike R n n') (hrow : RowsAlike R row row') :
    NumbersAlike R (meet n row) (meet n' row') := by
  unfold Exploration.meet
  exact List.rel_foldl (fun _ _ h _ _ hm => NumbersAlike.add hR h hm.2) h hrow

theorem NumbersAlike.number_eq (hR : BiUnique R) (h : NumbersAlike R n n')
    (hrow : RowsAlike R row row') : number n row = number n' row' := by
  unfold number
  rw [← List.forall₂_eq_eq_eq]
  refine List.rel_map (fun m m' hm => ?_) hrow
  rw [hm.1, h.find?_eq hR hm.2]

/-- The same rows, and related keys under each number. -/
structure InStep (R : κ → κ' → Prop) (e : Exploration κ) (e' : Exploration κ') : Prop where
  keys : NumbersAlike R e.met e'.met
  rows : e.rows = e'.rows

variable {f : κ → List (Label × κ)} {g : κ' → List (Label × κ')} {first : κ} {first' : κ'}
  {e : Exploration κ} {e' : Exploration κ'}

theorem inStep_start (h : R first first') : InStep R (start first) (start first') := by
  refine ⟨?_, rfl⟩
  have hk : (start first).met.keys = #[first] :=
    Numbering.keys_add_of_not_mem (Array.not_mem_empty first)
  have hk' : (start first').met.keys = #[first'] :=
    Numbering.keys_add_of_not_mem (Array.not_mem_empty first')
  rw [NumbersAlike, hk, hk']
  exact .cons h .nil

/-- Both explorations have a next key or none has. -/
theorem InStep.doNext (hR : BiUnique R) (hfg : ∀ k k', R k k' → RowsAlike R (f k) (g k'))
    (h : InStep R e e') : InStep R (doNext f e) (doNext g e') := by
  have hsize : e.met.keys.size = e'.met.keys.size := h.keys.length_eq
  cases hk : e.met.keys[e.rows.size]? with
  | none =>
    have hk' : e'.met.keys[e'.rows.size]? = none := by
      rw [Array.getElem?_eq_none_iff] at hk ⊢
      rwa [← hsize, ← h.rows]
    unfold Exploration.doNext
    rw [hk, hk']
    exact h
  | some k =>
    rw [← Array.getElem?_toList] at hk
    obtain ⟨k', hk', hkk⟩ := exists_getElem?_of_forall₂ h.keys hk
    rw [Array.getElem?_toList] at hk hk'
    rw [h.rows] at hk'
    have hrow := hfg k k' hkk
    have hmeet := NumbersAlike.meet hR h.keys hrow
    rw [doNext_of_some hk, doNext_of_some hk', h.rows, hmeet.number_eq hR hrow]
    exact ⟨hmeet, rfl⟩

theorem InStep.iterate_doNext (hR : BiUnique R) (hfg : ∀ k k', R k k' → RowsAlike R (f k) (g k'))
    (h : InStep R e e') (m : Nat) :
    InStep R ((Exploration.doNext f)^[m] e) ((Exploration.doNext g)^[m] e') := by
  induction m with
  | zero => exact h
  | succ m ih =>
    rw [Function.iterate_succ_apply', Function.iterate_succ_apply']
    exact ih.doNext hR hfg

/-- Related graphs are explored in step. -/
theorem Explored.inStep (hR : BiUnique R) (hfirst : R first first')
    (hfg : ∀ k k', R k k' → RowsAlike R (f k) (g k')) (h : Explored f first e)
    (h' : Explored g first' e') : InStep R e e' := by
  obtain ⟨n, hn⟩ := h.iterate_doNext
  obtain ⟨n', hn'⟩ := h'.iterate_doNext
  have hstep := (inStep_start hfirst).iterate_doNext hR hfg (n + n')
  rw [hn n', Nat.add_comm, hn' n] at hstep
  exact hstep

/-- Under each number there are related keys, or none in either exploration. -/
theorem InStep.getElem?_keys (h : InStep R e e') (i : Nat) :
    (e.met.keys[i]? = none ∧ e'.met.keys[i]? = none) ∨
      ∃ k k', e.met.keys[i]? = some k ∧ e'.met.keys[i]? = some k' ∧ R k k' := by
  have hsize : e.met.keys.size = e'.met.keys.size := h.keys.length_eq
  cases hk : e.met.keys[i]? with
  | none =>
    rw [Array.getElem?_eq_none_iff, hsize, ← Array.getElem?_eq_none_iff] at hk
    exact .inl ⟨rfl, hk⟩
  | some k =>
    rw [← Array.getElem?_toList] at hk
    obtain ⟨k', hk', hkk⟩ := exists_getElem?_of_forall₂ h.keys hk
    rw [Array.getElem?_toList] at hk'
    exact .inr ⟨k, k', rfl, hk', hkk⟩

theorem InStep.exists_keys (h : InStep R e e') {i : Nat} (hi : i < e.met.keys.size) :
    ∃ k k', e.met.keys[i]? = some k ∧ e'.met.keys[i]? = some k' ∧ R k k' := by
  refine (h.getElem?_keys i).resolve_left fun hnone => ?_
  rw [Array.getElem?_eq_getElem hi] at hnone
  cases hnone.1

variable {accepting : κ → Bool} {accepting' : κ' → Bool}

/-- Explorations in step give the same automaton but for the origins. -/
theorem InStep.toAutomaton_eq (h : InStep R e e') (origin : κ → StateSet) (origin' : κ' → StateSet)
    (hacc : ∀ k k', R k k' → accepting k = accepting' k') :
    e'.toAutomaton origin' accepting' =
      (e.toAutomaton origin accepting).withOrigins (e'.toAutomaton origin' accepting').origin? := by
  refine congrArg (fun nodes => Automaton.mk nodes (some 0)) (Array.ext_getElem? fun i => ?_)
  show (e'.toAutomaton origin' accepting').nodes[i]? =
    ((e.toAutomaton origin accepting).withOrigins _).nodes[i]?
  rw [Automaton.getElem?_nodes_withOrigins, getElem?_nodes, getElem?_nodes, Option.map_map]
  rcases h.getElem?_keys i with ⟨hk, hk'⟩ | ⟨k, k', hk, hk', hkk⟩
  · rw [hk, hk']
    rfl
  · rw [hk, hk']
    simp only [Option.map_some, Function.comp_apply, origin?_toAutomaton hk', node, h.rows,
      hacc k k' hkk]

theorem InStep.withoutOrigins_eq (h : InStep R e e') {origin : κ → StateSet}
    {origin' : κ' → StateSet} (hacc : ∀ k k', R k k' → accepting k = accepting' k') :
    (e.toAutomaton origin accepting).withoutOrigins =
      (e'.toAutomaton origin' accepting').withoutOrigins := by
  rw [h.toAutomaton_eq origin origin' hacc, Automaton.withoutOrigins_withOrigins]

end Exploration

end PatternAutomata
