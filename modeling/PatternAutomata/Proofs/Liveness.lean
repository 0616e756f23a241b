import PatternAutomata.Proofs.BreadthFirst
import PatternAutomata.Proofs.Trim

/-!
# Which states are live

A state is live when some way leads to it from the initial state and some way from it to an accepting
one.  Both searches find what they should on any automaton, so that liveness is exact:

    s ∈ a.live ↔ s ∈ a.reachable ∧ s ∈ a.productive
    a.hasDeadStates = true ↔ some state is not live                                        (live_exact)

The searches take up first what they met last.  The order does not matter: a breadth-first walk, which
takes up first what it found first, finds the same states.  It keeps the same facts (`Walked`): what
is found is reached, and what is found and not in the queue has all its successors found.  Each step
takes one state off the queue and adds to the queue what it adds to the found states, and at most `n`
states are found, so `n` steps empty the queue:

    t ∈ breadthFirst succ n seeds seeds ↔ steps of `succ` lead from a seed to t        (mem_breadthFirst)
-/

namespace PatternAutomata

open Relation

/-! ## Breadth-first walks -/

section Walk

variable {n : Nat} {succ : State → List State} {seeds queue found : List State} {s t : State}

theorem nodup_eraseDups (l : List State) : l.eraseDups.Nodup := by
  induction l using List.reverseRecOn with
  | nil => exact .nil
  | append_singleton l t ih =>
    rw [eraseDups_concat]
    split
    · exact ih
    · next ht =>
      refine List.nodup_append.2 ⟨ih, List.nodup_singleton t, fun u hu v hv => ?_⟩
      rw [List.mem_singleton.1 hv]
      exact fun e => ht (e ▸ List.mem_eraseDups.1 hu)

/-- The successors of a state that have not been found, each once. -/
def fresh (succ : State → List State) (found : List State) (s : State) : List State :=
  ((succ s).filter fun t => decide (t ∉ found)).eraseDups

theorem mem_fresh : t ∈ fresh succ found s ↔ t ∈ succ s ∧ t ∉ found := by
  rw [fresh, List.mem_eraseDups, List.mem_filter, decide_eq_true_eq]

/-- What a breadth-first walk from some seeds keeps from step to step. -/
structure Walked (n : Nat) (succ : State → List State) (seeds queue found : List State) : Prop where
  nodup : found.Nodup
  lt : ∀ s ∈ found, s < n
  queued : ∀ s ∈ queue, s ∈ found
  reached : ∀ s ∈ found, ∃ r ∈ seeds, ReflTransGen (fun s t => t ∈ succ s) r s
  followed : ∀ s ∈ found, s ∉ queue → ∀ t ∈ succ s, t ∈ found
  seeded : ∀ s ∈ seeds, s ∈ found

theorem walked_seeds (hnodup : seeds.Nodup) (hlt : ∀ s ∈ seeds, s < n) :
    Walked n succ seeds seeds seeds :=
  ⟨hnodup, hlt, fun _ hs => hs, fun s hs => ⟨s, hs, .refl⟩, fun _ hs hn => absurd hs hn,
    fun _ hs => hs⟩

theorem Walked.length_le (h : Walked n succ seeds queue found) : found.length ≤ n := by
  have hsub : found.Subperm (List.range n) :=
    h.nodup.subperm fun s hs => List.mem_range.2 (h.lt s hs)
  have hle := hsub.length_le
  rwa [List.length_range] at hle

theorem Walked.step (h : Walked n succ seeds (s :: queue) found)
    (hsucc : ∀ s, ∀ t ∈ succ s, t < n) :
    Walked n succ seeds (queue ++ fresh succ found s) (found ++ fresh succ found s) := by
  have hs : s ∈ found := h.queued s List.mem_cons_self
  constructor
  case nodup =>
    refine List.nodup_append.2 ⟨h.nodup, nodup_eraseDups _, fun t ht u hu => ?_⟩
    exact fun e => (mem_fresh.1 hu).2 (e ▸ ht)
  case lt =>
    intro t ht
    rcases List.mem_append.1 ht with ht | ht
    · exact h.lt t ht
    · exact hsucc s t (mem_fresh.1 ht).1
  case queued =>
    intro t ht
    rcases List.mem_append.1 ht with ht | ht
    · exact List.mem_append_left _ (h.queued t (List.mem_cons_of_mem s ht))
    · exact List.mem_append_right _ ht
  case reached =>
    intro t ht
    rcases List.mem_append.1 ht with ht | ht
    · exact h.reached t ht
    · obtain ⟨r, hr, hrs⟩ := h.reached s hs
      exact ⟨r, hr, hrs.tail (mem_fresh.1 ht).1⟩
  case followed =>
    intro t ht hn u hu
    rw [List.mem_append, not_or] at hn
    have hfound : t ∈ found := (List.mem_append.1 ht).resolve_right hn.2
    by_cases hu' : u ∈ found
    · exact List.mem_append_left _ hu'
    · by_cases hts : t = s
      · subst hts
        exact List.mem_append_right _ (mem_fresh.2 ⟨hu, hu'⟩)
      · have hout : t ∉ s :: queue := List.not_mem_cons_of_ne_of_not_mem hts hn.1
        exact absurd (h.followed t hfound hout u hu) hu'
  case seeded => exact fun t ht => List.mem_append_left _ (h.seeded t ht)

/-- With as many steps as states that are in the queue or have not been found, the queue runs empty. -/
theorem Walked.breadthFirst {fuel : Nat} (h : Walked n succ seeds queue found)
    (hsucc : ∀ s, ∀ t ∈ succ s, t < n) (hfuel : n + queue.length ≤ fuel + found.length) :
    Walked n succ seeds [] (breadthFirst succ fuel queue found) := by
  induction fuel generalizing queue found with
  | zero =>
    have hle := h.length_le
    have hempty : queue = [] := List.eq_nil_of_length_eq_zero (by omega)
    exact hempty ▸ h
  | succ fuel ih =>
    cases queue with
    | nil => exact h
    | cons s queue =>
      refine ih (h.step hsucc) ?_
      rw [List.length_cons] at hfuel
      rw [List.length_append, List.length_append]
      omega

theorem mem_breadthFirst (hnodup : seeds.Nodup) (hlt : ∀ s ∈ seeds, s < n)
    (hsucc : ∀ s, ∀ t ∈ succ s, t < n) :
    t ∈ breadthFirst succ n seeds seeds ↔
      ∃ s ∈ seeds, ReflTransGen (fun s t => t ∈ succ s) s t := by
  have hstart : Walked n succ seeds seeds seeds := walked_seeds hnodup hlt
  have h := hstart.breadthFirst hsucc (Nat.le_refl _)
  refine ⟨h.reached t, ?_⟩
  rintro ⟨s, hs, hp⟩
  induction hp with
  | refl => exact h.seeded s hs
  | tail _ hut ih => exact h.followed _ ih List.not_mem_nil _ hut

end Walk

namespace Automaton

variable {a : Automaton}

/-! ## The two searches -/

/-- The sources of the edges to a state. -/
def sources (a : Automaton) (t : State) : List State :=
  (a.edges.filter fun e => decide (e.dest = t)).map Edge.source

theorem mem_sources_iff {s t : State} : s ∈ a.sources t ↔ a.Moves s t := by
  unfold sources Moves
  rw [List.mem_map]
  constructor
  · rintro ⟨⟨s, l, t'⟩, he, rfl⟩
    obtain ⟨hmem, ht⟩ := List.mem_filter.1 he
    cases of_decide_eq_true ht
    exact ⟨l, mem_edges.1 hmem⟩
  · rintro ⟨l, h⟩
    exact ⟨⟨s, l, t⟩, List.mem_filter.2 ⟨mem_edges.2 h, decide_eq_true rfl⟩, rfl⟩

theorem reachable_eq_breadthFirst (hw : a.WellFormed) : a.reachable =
    OrderedSet.ofList (breadthFirst a.successors a.size a.initial.toList a.initial.toList) := by
  refine OrderedSet.ext fun t => ?_
  rw [OrderedSet.mem_ofList, mem_breadthFirst, mem_reachable hw]
  · simp only [Option.mem_toList, mem_successors]
  · cases a.initial with
    | none => exact .nil
    | some i => exact List.nodup_singleton i
  · exact fun s hs => hw.initial_lt s (Option.mem_toList.1 hs)
  · exact fun s t ht => hw.lt_of_moves (mem_successors.1 ht)

theorem productive_eq_breadthFirst (a : Automaton) : a.productive =
    OrderedSet.ofList (breadthFirst a.sources a.size a.acceptStates a.acceptStates) := by
  refine OrderedSet.ext fun s => ?_
  rw [OrderedSet.mem_ofList, mem_breadthFirst, mem_productive]
  · unfold Productive
    simp only [mem_acceptStates, mem_sources_iff]
    refine exists_congr fun t => and_congr_right fun _ => ?_
    exact reflTransGen_swap.symm
  · exact List.nodup_range.filter _
  · exact fun s hs => lt_size_of_accepting (mem_acceptStates.1 hs)
  · exact fun t s hs => lt_size_of_moves (mem_sources_iff.1 hs)

/-! ## Liveness -/

/-- On any automaton the reachable states are the members that some way of arrows, of any labels, leads
to from the initial state, the productive ones those from which some way leads to an accepting state,
and the live ones those that are both; and there are dead states when some member is not live.  Taken up
in the order of a breadth-first walk the states are the same. -/
theorem live_exact (a : Automaton) :
    (∀ s, s ∈ a.reachable ↔
      s < a.size ∧ ∃ i, a.initial = some i ∧ ReflTransGen a.Moves i s) ∧
    (∀ s, s ∈ a.productive ↔ ∃ t, a.accepting t = true ∧ ReflTransGen a.Moves s t) ∧
    (∀ s, s ∈ a.live ↔ s ∈ a.reachable ∧ s ∈ a.productive) ∧
    (a.hasDeadStates = true ↔ ∃ s, s < a.size ∧ s ∉ a.live) ∧
    (a.WellFormed → a.reachable =
      OrderedSet.ofList (breadthFirst a.successors a.size a.initial.toList a.initial.toList)) ∧
    a.productive =
      OrderedSet.ofList (breadthFirst a.sources a.size a.acceptStates a.acceptStates) :=
  ⟨fun _ => mem_reachable_iff, fun _ => mem_productive, fun _ => mem_live_iff, hasDeadStates_iff,
    reachable_eq_breadthFirst, productive_eq_breadthFirst a⟩

/-- The state between the two live ones is reached, and leads to itself only. -/
theorem live_exact_deadBranch :
    deadBranch.WellFormed ∧ deadBranch.reachable = OrderedSet.ofList (breadthFirst
      deadBranch.successors deadBranch.size deadBranch.initial.toList deadBranch.initial.toList) ∧
    (∃ i, deadBranch.initial = some i ∧ ReflTransGen deadBranch.Moves i 1) ∧
    (¬∃ t, deadBranch.accepting t = true ∧ ReflTransGen deadBranch.Moves 1 t) ∧
    1 ∉ deadBranch.live ∧ deadBranch.hasDeadStates = true := by
  obtain ⟨hreachable, hproductive, hlive, hdead, hwalk, -⟩ := live_exact deadBranch
  have hw : deadBranch.WellFormed := by decide
  have hfound : 1 ∈ deadBranch.reachable := by decide
  have hlost : 1 ∉ deadBranch.productive := by decide
  have hnot : 1 ∉ deadBranch.live := fun h => hlost ((hlive 1).1 h).2
  exact ⟨hw, hwalk hw, ((hreachable 1).1 hfound).2, fun h => hlost ((hproductive 1).2 h), hnot,
    hdead.2 ⟨1, by decide, hnot⟩⟩

end Automaton

end PatternAutomata
