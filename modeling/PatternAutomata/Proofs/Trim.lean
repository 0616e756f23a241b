import PatternAutomata.Automaton.Trim
import PatternAutomata.Proofs.Path
import PatternAutomata.Proofs.Residual

/-!
# What is left without dead states

`a.RestrictsTo k b` says that `b` is the part of `a` on the states in `k`: the place of a state is its new
number, and arrows stay when both ends do.  There is one such automaton (`RestrictsTo.unique`).  What it
does, `a` does; conversely nothing is lost on the way to an accepting state when `k` holds with a state
the productive ones that it leads to:

    b.Path j w j' → a.Path k[j] w k[j']                                           (RestrictsTo.path)
    a.Path k[j] w t → a.accepting t → ∃ j', k[j'] = t ∧ b.Path j w j'       (RestrictsTo.exists_path)
    j ∈ b.live ↔ k[j] ∈ a.live                                           (RestrictsTo.mem_live_iff)

Trimming restricts to the states that take part, so it keeps the language (`trim_spec`).  All states of
the result take part in it, so it is trimmed as it is.
-/

namespace PatternAutomata.Automaton

open Relation StrictTotal

variable {a b b' : Automaton} {k : List State} {i j j' : Nat} {s t : State} {w : List Char}

/-- The automaton on the states in `k`, each under the number of its place. -/
structure RestrictsTo (a : Automaton) (k : List State) (b : Automaton) : Prop where
  size : b.size = k.length
  name : ∀ (j : Nat) (s : State), k[j]? = some s → b.name j = a.name s
  origin? : ∀ (j : Nat) (s : State), k[j]? = some s → b.origin? j = a.origin? s
  accepting : ∀ (j : Nat) (s : State), k[j]? = some s → b.accepting j = a.accepting s
  mem_arrows : ∀ (l : Label) (j j' : Nat), (⟨l, j'⟩ : Arrow) ∈ b.arrows j ↔
    ∃ s t, k[j]? = some s ∧ k[j']? = some t ∧ (⟨l, t⟩ : Arrow) ∈ a.arrows s
  initial : ∀ j : Nat, b.initial = some j ↔ ∃ s, k[j]? = some s ∧ a.initial = some s

/-! ## Dead states -/

theorem hasDeadStates_iff : a.hasDeadStates = true ↔ ∃ s, s < a.size ∧ s ∉ a.live := by
  have hlt : ∀ s ∈ a.live, s < a.size := fun s hs =>
    lt_size_of_mem_reachable (mem_live_iff.1 hs).1
  rw [hasDeadStates, decide_eq_true_iff, OrderedSet.size]
  constructor
  · intro hsize
    by_contra hall
    push Not at hall
    have hsub : (List.range a.size).Subperm a.live.toList :=
      List.nodup_range.subperm fun s hs => hall s (List.mem_range.1 hs)
    have hle := hsub.length_le
    rw [List.length_range] at hle
    omega
  · rintro ⟨s, hs, hdead⟩
    have hnodup : (s :: a.live.toList).Nodup := List.nodup_cons.2 ⟨hdead, a.live.nodup_toList⟩
    have hsub : (s :: a.live.toList).Subperm (List.range a.size) := by
      refine hnodup.subperm fun t ht => List.mem_range.2 ?_
      rcases List.mem_cons.1 ht with rfl | ht
      · exact hs
      · exact hlt t ht
    have hle := hsub.length_le
    rw [List.length_range, List.length_cons] at hle
    exact hle

/-! ## Restricting -/

theorem idxOf?_eq_some_iff (hk : k.Nodup) : k.idxOf? t = some j ↔ k[j]? = some t := by
  rw [List.idxOf?_eq_some_iff, List.getElem?_eq_some_iff]
  refine exists_congr fun hj => and_iff_left_of_imp fun ht j' hlt h' => ?_
  exact Nat.ne_of_lt hlt (hk.getElem_inj_iff.1 (h'.trans ht.symm))

theorem mem_arrows_trimNode (hk : k.Nodup) {n : Node} {l : Label} :
    (⟨l, j⟩ : Arrow) ∈ (trimNode k n).arrows ↔ ∃ t, k[j]? = some t ∧ ⟨l, t⟩ ∈ n.arrows := by
  rw [trimNode, OrderedSet.mem_ofList, List.mem_filterMap]
  constructor
  · rintro ⟨⟨m, t⟩, hr, h⟩
    obtain ⟨j', hj', h⟩ := Option.map_eq_some_iff.1 h
    cases h
    exact ⟨t, (idxOf?_eq_some_iff hk).1 hj', hr⟩
  · rintro ⟨t, ht, hr⟩
    exact ⟨⟨l, t⟩, hr, by rw [(idxOf?_eq_some_iff hk).2 ht]; rfl⟩

/-- Members are looked up one by one, as none of them is missing. -/
theorem nodes_restrict (hlt : ∀ s ∈ k, s < a.size) :
    (a.restrict k).nodes.toList.map some = k.map fun s => (a.nodes[s]?).map (trimNode k) := by
  have hsome : ∀ o ∈ k.map fun s => a.nodes[s]?, o.isSome = true := by
    intro o ho
    obtain ⟨s, hs, rfl⟩ := List.mem_map.1 ho
    rw [Array.getElem?_eq_getElem (hlt s hs), Option.isSome_some]
  calc ((k.filterMap fun s => a.nodes[s]?).map (trimNode k)).map some
      = ((k.filterMap fun s => a.nodes[s]?).map some).map (Option.map (trimNode k)) := by
        simp only [List.map_map, Function.comp_def, Option.map_some]
    _ = k.map fun s => (a.nodes[s]?).map (trimNode k) := by
        rw [List.map_filterMap_some_eq_filter_map_isSome, List.filter_eq_self.2 hsome, List.map_map]
        rfl

theorem size_restrict (hlt : ∀ s ∈ k, s < a.size) : (a.restrict k).size = k.length := by
  have h := congrArg List.length (nodes_restrict hlt)
  rw [List.length_map, List.length_map] at h
  exact h

theorem getElem?_nodes_restrict (hlt : ∀ s ∈ k, s < a.size) (hj : k[j]? = some s) :
    (a.restrict k).nodes[j]? = (a.nodes[s]?).map (trimNode k) := by
  have h := congrArg (fun l => l[j]?) (nodes_restrict hlt)
  simp only [List.getElem?_map, hj, Array.getElem?_toList, Option.map_some] at h
  obtain ⟨n, hn, h⟩ := Option.map_eq_some_iff.1 h
  rw [hn, h]

theorem restrictsTo_restrict (hk : k.Nodup) (hlt : ∀ s ∈ k, s < a.size) :
    a.RestrictsTo k (a.restrict k) := by
  refine
    { size := size_restrict hlt
      name := fun j s hj => ?name
      origin? := fun j s hj => ?origin
      accepting := fun j s hj => ?accepting
      mem_arrows := fun l j j' => ?mem_arrows
      initial := fun j => ?initial }
  case name =>
    rw [Automaton.name, Automaton.name, getElem?_nodes_restrict hlt hj]
    cases a.nodes[s]? <;> rfl
  case origin =>
    rw [Automaton.origin?, Automaton.origin?, getElem?_nodes_restrict hlt hj]
    cases a.nodes[s]? <;> rfl
  case accepting =>
    rw [Automaton.accepting, Automaton.accepting, getElem?_nodes_restrict hlt hj]
    cases a.nodes[s]? <;> rfl
  case mem_arrows =>
    have hat : ∀ s, k[j]? = some s → ((⟨l, j'⟩ : Arrow) ∈ (a.restrict k).arrows j ↔
        ∃ t, k[j']? = some t ∧ (⟨l, t⟩ : Arrow) ∈ a.arrows s) := by
      intro s hj
      unfold arrows
      rw [getElem?_nodes_restrict hlt hj]
      cases a.nodes[s]? with
      | none => simp
      | some n => exact mem_arrows_trimNode hk
    constructor
    · intro h
      have hj := List.getElem?_eq_getElem (size_restrict hlt ▸ lt_size_of_mem_arrows h)
      obtain ⟨t, ht, hl⟩ := (hat _ hj).1 h
      exact ⟨_, t, hj, ht, hl⟩
    · rintro ⟨s, t, hj, ht, hl⟩
      exact (hat s hj).2 ⟨t, ht, hl⟩
  case initial =>
    show (a.initial.bind fun s => k.idxOf? s) = some j ↔ _
    rw [Option.bind_eq_some_iff]
    refine exists_congr fun s => ?_
    rw [idxOf?_eq_some_iff hk, and_comm]

/-- An automaton is its part on all states. -/
theorem restrictsTo_states (hw : a.WellFormed) : a.RestrictsTo a.states a := by
  have hstates : ∀ j s : Nat, a.states[j]? = some s ↔ j < a.size ∧ j = s := by
    intro j s
    simp [states, List.getElem?_eq_some_iff]
  refine
    { size := List.length_range.symm
      name := fun j s hj => congrArg a.name ((hstates j s).1 hj).2
      origin? := fun j s hj => congrArg a.origin? ((hstates j s).1 hj).2
      accepting := fun j s hj => congrArg a.accepting ((hstates j s).1 hj).2
      mem_arrows := fun l j j' => ⟨fun h => ?_, ?_⟩
      initial := fun j => ⟨fun h => ?_, ?_⟩ }
  · exact ⟨j, j', (hstates j j).2 ⟨lt_size_of_mem_arrows h, rfl⟩,
      (hstates j' j').2 ⟨hw.dest_lt j _ h, rfl⟩, h⟩
  · rintro ⟨s, t, hj, hj', h⟩
    rw [((hstates j s).1 hj).2, ((hstates j' t).1 hj').2]
    exact h
  · exact ⟨j, (hstates j j).2 ⟨hw.initial_lt j h, rfl⟩, h⟩
  · rintro ⟨s, hj, h⟩
    rw [((hstates j s).1 hj).2]
    exact h

/-! ## The part on some states -/

/-- What is looked at makes up an automaton. -/
theorem eq_of_looks (hsize : a.size = b.size) (hinitial : a.initial = b.initial)
    (hname : ∀ s < a.size, a.name s = b.name s) (horigin : ∀ s < a.size, a.origin? s = b.origin? s)
    (haccepting : ∀ s < a.size, a.accepting s = b.accepting s)
    (harrows : ∀ s < a.size, ∀ r, r ∈ a.arrows s ↔ r ∈ b.arrows s) : a = b := by
  obtain ⟨nodes, initial⟩ := a
  obtain ⟨nodes', initial'⟩ := b
  cases hinitial
  congr 1
  refine Array.ext hsize fun s hs hs' => ?_
  have hn := Array.getElem?_eq_getElem hs
  have hn' := Array.getElem?_eq_getElem hs'
  specialize hname s hs
  specialize horigin s hs
  specialize haccepting s hs
  specialize harrows s hs
  simp only [name, hn, hn'] at hname
  simp only [origin?, hn, hn'] at horigin
  simp only [accepting, hn, hn'] at haccepting
  simp only [arrows, hn, hn', OrderedSet.mem_toList] at harrows
  generalize nodes[s] = n at *
  generalize nodes'[s] = n' at *
  obtain ⟨name, accepting, origin, arrows⟩ := n
  obtain ⟨name', accepting', origin', arrows'⟩ := n'
  cases hname
  cases horigin
  cases haccepting
  cases OrderedSet.ext harrows
  rfl

namespace RestrictsTo

theorem exists_mem (h : a.RestrictsTo k b) (hj : j < b.size) : ∃ s ∈ k, k[j]? = some s := by
  have hs := List.getElem?_eq_getElem (h.size ▸ hj)
  exact ⟨_, List.mem_of_getElem? hs, hs⟩

theorem unique (h : a.RestrictsTo k b) (h' : a.RestrictsTo k b') : b = b' := by
  refine eq_of_looks (h.size.trans h'.size.symm) (Option.ext fun j => ?initial)
    (fun j hj => ?name) (fun j hj => ?origin) (fun j hj => ?accepting) (fun j _ r => ?arrows)
  case initial => rw [h.initial, h'.initial]
  case name =>
    obtain ⟨s, -, hs⟩ := h.exists_mem hj
    rw [h.name j s hs, h'.name j s hs]
  case origin =>
    obtain ⟨s, -, hs⟩ := h.exists_mem hj
    rw [h.origin? j s hs, h'.origin? j s hs]
  case accepting =>
    obtain ⟨s, -, hs⟩ := h.exists_mem hj
    rw [h.accepting j s hs, h'.accepting j s hs]
  case arrows =>
    obtain ⟨l, j'⟩ := r
    rw [h.mem_arrows, h'.mem_arrows]

theorem lt_size (h : a.RestrictsTo k b) (hj : k[j]? = some s) : j < b.size := by
  rw [h.size]
  exact (List.getElem?_eq_some_iff.1 hj).1

theorem wellFormed (h : a.RestrictsTo k b) : b.WellFormed := by
  constructor
  · rintro j ⟨l, j'⟩ hr
    obtain ⟨s, t, -, ht, -⟩ := (h.mem_arrows l j j').1 hr
    exact h.lt_size ht
  · intro j hj
    obtain ⟨s, hs, -⟩ := (h.initial j).1 hj
    exact h.lt_size hs

theorem moves_iff (h : a.RestrictsTo k b) :
    b.Moves j j' ↔ ∃ s t, k[j]? = some s ∧ k[j']? = some t ∧ a.Moves s t := by
  constructor
  · rintro ⟨l, hl⟩
    obtain ⟨s, t, hs, ht, hl⟩ := (h.mem_arrows l j j').1 hl
    exact ⟨s, t, hs, ht, l, hl⟩
  · rintro ⟨s, t, hs, ht, l, hl⟩
    exact ⟨l, (h.mem_arrows l j j').2 ⟨s, t, hs, ht, hl⟩⟩

theorem reaches (h : a.RestrictsTo k b) (hs : k[j]? = some s) (hp : ReflTransGen b.Moves j j') :
    ∃ t, k[j']? = some t ∧ ReflTransGen a.Moves s t := by
  induction hp with
  | refl => exact ⟨s, hs, .refl⟩
  | tail _ hm ih =>
    obtain ⟨u, hu, hsu⟩ := ih
    obtain ⟨u', t, hu', ht, hm⟩ := h.moves_iff.1 hm
    cases hu.symm.trans hu'
    exact ⟨t, ht, hsu.tail hm⟩

theorem path (h : a.RestrictsTo k b) (hs : k[j]? = some s) (hp : b.Path j w j') :
    ∃ t, k[j']? = some t ∧ a.Path s w t := by
  induction hp generalizing s with
  | nil j => exact ⟨s, hs, .nil s⟩
  | empty hm _ ih =>
    obtain ⟨s', u, hs', hu, hm⟩ := (h.mem_arrows _ _ _).1 hm
    cases hs.symm.trans hs'
    obtain ⟨t, ht, hp⟩ := ih hu
    exact ⟨t, ht, .empty hm hp⟩
  | read hr hc _ ih =>
    obtain ⟨s', u, hs', hu, hr⟩ := (h.mem_arrows _ _ _).1 hr
    cases hs.symm.trans hs'
    obtain ⟨t, ht, hp⟩ := ih hu
    exact ⟨t, ht, .read hr hc hp⟩

/-! ### Where productive states are kept -/

section Productive

variable (h : a.RestrictsTo k b) (hc : ∀ s ∈ k, ∀ t, a.Moves s t → a.Productive t → t ∈ k)
include h hc

theorem exists_reached (ht : a.Productive t) (hs : k[j]? = some s) (hp : ReflTransGen a.Moves s t) :
    ∃ j' : Nat, k[j']? = some t ∧ ReflTransGen b.Moves j j' := by
  induction hp using ReflTransGen.head_induction_on generalizing j with
  | refl => exact ⟨j, hs, .refl⟩
  | @head s u hsu hut ih =>
    obtain ⟨f, hf, htf⟩ := ht
    have hu : u ∈ k := hc s (List.mem_of_getElem? hs) u hsu ⟨f, hf, hut.trans htf⟩
    obtain ⟨i, hi⟩ := List.mem_iff_getElem?.1 hu
    obtain ⟨j', hj', hp⟩ := ih hi
    exact ⟨j', hj', .head (h.moves_iff.2 ⟨s, u, hs, hi, hsu⟩) hp⟩

theorem exists_path (ht : a.accepting t = true) (hs : k[j]? = some s) (hp : a.Path s w t) :
    ∃ j' : Nat, k[j']? = some t ∧ b.Path j w j' := by
  induction hp generalizing j with
  | nil s => exact ⟨j, hs, .nil j⟩
  | empty hm hp ih =>
    have hu := hc _ (List.mem_of_getElem? hs) _ hm.moves ⟨_, ht, hp.moves⟩
    obtain ⟨i, hi⟩ := List.mem_iff_getElem?.1 hu
    obtain ⟨j', hj', hp⟩ := ih ht hi
    exact ⟨j', hj', .empty ((h.mem_arrows _ _ _).2 ⟨_, _, hs, hi, hm⟩) hp⟩
  | read hr hadm hp ih =>
    have hu := hc _ (List.mem_of_getElem? hs) _ ⟨_, hr⟩ ⟨_, ht, hp.moves⟩
    obtain ⟨i, hi⟩ := List.mem_iff_getElem?.1 hu
    obtain ⟨j', hj', hp⟩ := ih ht hi
    exact ⟨j', hj', .read ((h.mem_arrows _ _ _).2 ⟨_, _, hs, hi, hr⟩) hadm hp⟩

theorem productive_iff (hs : k[j]? = some s) : b.Productive j ↔ a.Productive s := by
  constructor
  · rintro ⟨j', hacc, hp⟩
    obtain ⟨t, ht, hp⟩ := h.reaches hs hp
    exact ⟨t, (h.accepting j' t ht).symm.trans hacc, hp⟩
  · rintro ⟨t, hacc, hp⟩
    obtain ⟨j', ht, hp⟩ := h.exists_reached hc ⟨t, hacc, .refl⟩ hs hp
    exact ⟨j', (h.accepting j' t ht).trans hacc, hp⟩

variable (hw : a.WellFormed) (hi : a.initial = some i) (hik : i ∈ k)
include hw hi hik

theorem acceptsByAnyPath_eq (w : List Char) : b.acceptsByAnyPath w = a.acceptsByAnyPath w := by
  obtain ⟨j, hj⟩ := List.mem_iff_getElem?.1 hik
  rw [Bool.eq_iff_iff, acceptsByAnyPath_iff hw hi,
    acceptsByAnyPath_iff h.wellFormed ((h.initial j).2 ⟨i, hj, hi⟩)]
  constructor
  · rintro ⟨j', hp, hacc⟩
    obtain ⟨t, ht, hp⟩ := h.path hj hp
    exact ⟨t, hp, (h.accepting j' t ht).symm.trans hacc⟩
  · rintro ⟨t, hp, hacc⟩
    obtain ⟨j', ht, hp⟩ := h.exists_path hc hacc hj hp
    exact ⟨j', hp, (h.accepting j' t ht).trans hacc⟩

theorem mem_live_iff (hk : k.Nodup) (hs : k[j]? = some s) : j ∈ b.live ↔ s ∈ a.live := by
  obtain ⟨i', hi'⟩ := List.mem_iff_getElem?.1 hik
  rw [mem_live_iff_of_initial hw hi,
    mem_live_iff_of_initial h.wellFormed ((h.initial i').2 ⟨i, hi', hi⟩),
    h.productive_iff hc hs]
  refine and_congr_left fun hp => ?_
  constructor
  · intro hreach
    obtain ⟨s', hs', hreach⟩ := h.reaches hi' hreach
    cases hs.symm.trans hs'
    exact hreach
  · intro hreach
    obtain ⟨j', hj', hreach⟩ := h.exists_reached hc hp hi' hreach
    have hj : j < k.length := (List.getElem?_eq_some_iff.1 hs).1
    obtain rfl : j = j' := (List.getElem?_inj hj hk).1 (hs.trans hj'.symm)
    exact hreach

end Productive

end RestrictsTo

/-! ## Trimming -/

section Trim

variable (hw : a.WellFormed) (hi : a.initial = some i)
include hw hi

theorem restrictsTo_trim : a.RestrictsTo a.kept.toList a.trim := by
  rw [trim, hi]
  exact restrictsTo_restrict a.kept.nodup_toList fun s hs =>
    lt_size_of_mem_kept hw (OrderedSet.mem_toList.1 hs)

theorem mem_live_trim (hs : a.kept.toList[j]? = some s) : j ∈ a.trim.live ↔ s ∈ a.live :=
  (restrictsTo_trim hw hi).mem_live_iff (fun _ hs _ => mem_kept_of_move hw hs) hw hi
    (mem_kept.2 (.inl hi)) a.kept.nodup_toList hs

/-- All states of the result take part in it. -/
theorem mem_kept_trim (hj : j < a.trim.size) : j ∈ a.trim.kept := by
  have h := restrictsTo_trim hw hi
  obtain ⟨s, hmem, hs⟩ := h.exists_mem hj
  rcases (mem_kept_iff hi).1 hmem with rfl | hlive
  · exact mem_kept.2 (.inl ((h.initial j).2 ⟨s, hs, hi⟩))
  · exact mem_kept.2 (.inr (mem_live_iff.1 ((mem_live_trim hw hi hs).2 hlive)))

theorem trim_trim : a.trim.trim = a.trim := by
  have h := restrictsTo_trim hw hi
  obtain ⟨j, hj⟩ : ∃ j, a.trim.initial = some j := by
    obtain ⟨j, hj⟩ := List.mem_iff_getElem?.1 (mem_kept.2 (.inl hi) : i ∈ a.kept)
    exact ⟨j, (h.initial j).2 ⟨i, hj, hi⟩⟩
  have hall : a.trim.kept.toList = a.trim.states := by
    refine OrderedSet.eq_of_mem_iff a.trim.kept.ascending List.pairwise_lt_range fun s => ?_
    rw [states, List.mem_range]
    exact ⟨lt_size_of_mem_kept h.wellFormed, mem_kept_trim hw hi⟩
  have hagain := restrictsTo_trim h.wellFormed hj
  rw [hall] at hagain
  exact hagain.unique (restrictsTo_states h.wellFormed)

/-- Dead states are left only when nothing is accepted, as then the initial state is dead. -/
theorem hasDeadStates_trim : a.trim.hasDeadStates = true ↔ ∀ s, s ∉ a.live := by
  have h := restrictsTo_trim hw hi
  rw [hasDeadStates_iff]
  constructor
  · rintro ⟨j, hj, hdead⟩ t ht
    obtain ⟨s, hmem, hs⟩ := h.exists_mem hj
    rw [mem_live_trim hw hi hs] at hdead
    obtain rfl : s = i := ((mem_kept_iff hi).1 hmem).resolve_right hdead
    obtain ⟨hreach, f, hf, hp⟩ := (mem_live_iff_of_initial hw hi).1 ht
    exact hdead ((mem_live_iff_of_initial hw hi).2 ⟨.refl, f, hf, hreach.trans hp⟩)
  · intro hnone
    obtain ⟨j, hj⟩ := List.mem_iff_getElem?.1 (mem_kept.2 (.inl hi) : i ∈ a.kept)
    exact ⟨j, h.lt_size hj, fun hlive => hnone i ((mem_live_trim hw hi hj).1 hlive)⟩

/-- Trimming keeps the live states and the initial one, in their order, as they are and with the arrows
between them.  It keeps the language; what it gives has dead states only when nothing is live, and is
trimmed as it is. -/
theorem trim_spec :
    (∃ k : List State, k.Pairwise (· < ·) ∧ (∀ s, s ∈ k ↔ s = i ∨ s ∈ a.live) ∧
        a.RestrictsTo k a.trim) ∧
      (∀ s, s ∈ a.live ↔ ReflTransGen a.Moves i s ∧ a.Productive s) ∧
      (∀ w, a.trim.acceptsByAnyPath w = a.acceptsByAnyPath w) ∧
      (a.trim.hasDeadStates = true ↔ ∀ s, s ∉ a.live) ∧
      a.trim.trim = a.trim := by
  have h := restrictsTo_trim hw hi
  refine ⟨⟨a.kept.toList, a.kept.ascending, fun s => mem_kept_iff hi, h⟩,
    fun s => mem_live_iff_of_initial hw hi, fun w => ?_, hasDeadStates_trim hw hi, trim_trim hw hi⟩
  exact h.acceptsByAnyPath_eq (fun _ hs _ => mem_kept_of_move hw hs) hw hi (mem_kept.2 (.inl hi)) w

end Trim

/-- Two live states that lead to each other without reading, a dead one between them, which both lead to,
and an accepting one that nothing leads to. -/
def deadBranch : Automaton where
  nodes := #[
    { name := "S0", arrows := .ofList [⟨.epsilon, 2⟩, ⟨.symbol 'a', 1⟩, ⟨.symbol 'a', 2⟩] },
    { name := "S1", arrows := .ofList [⟨.symbol 'b', 1⟩] },
    { name := "S2", accepting := true, arrows := .ofList [⟨.epsilon, 0⟩, ⟨.range 'z' 'a', 1⟩] },
    { name := "S3", accepting := true, arrows := .ofList [⟨.symbol 'a', 0⟩] }]
  initial := some 0

theorem trim_spec_deadBranch :
    deadBranch.WellFormed ∧ deadBranch.initial = some 0 ∧ deadBranch.hasDeadStates = true ∧
      deadBranch.RestrictsTo [0, 2] deadBranch.trim ∧
      (∀ w, deadBranch.trim.acceptsByAnyPath w = deadBranch.acceptsByAnyPath w) ∧
      deadBranch.trim.hasDeadStates = false ∧ deadBranch.trim.trim = deadBranch.trim := by
  have hw : deadBranch.WellFormed := by decide
  obtain ⟨⟨k, hk, hmem, hr⟩, -, haccepts, hdead, hagain⟩ := trim_spec hw (i := 0) rfl
  have hlive : deadBranch.live = OrderedSet.ofList [0, 2] := by decide
  have hk : k = [0, 2] := by
    refine OrderedSet.eq_of_mem_iff hk (by decide) fun s => ?_
    rw [hmem, hlive, OrderedSet.mem_ofList]
    simp
  refine ⟨hw, rfl, by decide, hk ▸ hr, haccepts, Bool.eq_false_iff.2 fun h => ?_, hagain⟩
  exact hdead.1 h 0 (hlive ▸ by decide)

end PatternAutomata.Automaton
