import PatternAutomata.Proofs.Guarded.Exploration
import PatternAutomata.Proofs.Guarded.Search
import PatternAutomata.Proofs.Guarded.Sweep
import PatternAutomata.Proofs.WorkLimit

/-!
# The guarded subset construction

The guarded program looks at the acceptance of each member of a set, sweeps the labels out of the set
with a counter for each destination, searches for the closures, passes over those that are empty, asks
for a label for the bounds of each span, and checks the result for determinism at the end.  All sets
hold members only, and the spans of the sweep ascend and lead somewhere, so nothing of this fails:

    a.WellFormed → subsetConstruction a c.limit = returned (c.determinize a)     (subsetConstruction_eq)
    a.WellFormed → determinize a = .ok a.determinize                                    (determinize_eq)
-/

namespace PatternAutomata.Guarded

open Exploration

variable {ε : Type}

/-! ## The program -/

/-- The labels of spans: touching spans that lead to one target are one label. -/
def coalesce {α : Type} [DecidableEq α] (spans : List (Span α)) :
    Except (Stop ε) (List (Label × α)) :=
  (Span.merge spans).mapM fun m => do
    let l ← served (Label.ofBounds m.lo m.hi)
    .ok (l, m.target)

/-- The labels out of a set, with the closed sets that they lead to.  One that is empty is passed over. -/
def subsetMoves (a : Automaton) (set : StateSet) : Except (Stop ε) (List (Label × StateSet)) := do
  let moves ← disjointMoves a set
  let closed ← moves.mapM fun m => do
    let t ← closure a m.target
    .ok (m.map fun _ => t)
  coalesce (closed.filter fun m => !m.target.isEmpty)

/-- Whether a set has an accepting member. -/
def acceptsSet (a : Automaton) (set : StateSet) : Except (Stop ε) Bool :=
  set.toList.anyM (accepting a)

/-- The cost after a set, unless that cost uses up the limit. -/
def charge (limit : Option Nat) (cost : Nat) (set : StateSet) : Except TooComplex Nat :=
  let cost := cost + set.size
  match limit with
  | none => .ok cost
  | some limit => if Automaton.budget limit ≤ cost then .error ⟨limit⟩ else .ok cost

/-- The moves of a set with the cost after it. -/
def chargedMoves (a : Automaton) (limit : Option Nat) (cost : Nat) (set : StateSet) :
    Except (Stop TooComplex) (Nat × List (Label × StateSet)) := do
  let cost ← returned (charge limit cost set)
  let row ← subsetMoves a set
  .ok (cost, row)

/-- The subset construction, under a work limit if there is one. -/
def subsetConstruction (a : Automaton) (limit : Option Nat) : Except (Stop TooComplex) Automaton :=
  match a.initial with
  | none => .ok .empty
  | some s => do
    let first ← closure a [s]
    let d ← explore id (acceptsSet a) (chargedMoves a limit) a.subsetCount 0 first
    demand (d.isDeterministic = true) (.misuse .nondeterministic)
    .ok d

/-- The subset construction without a limit, which has no reason to fail. -/
def determinize (a : Automaton) : Except (Stop ε) Automaton :=
  match subsetConstruction a none with
  | .ok d => .ok d
  | .error (.panic p) => .error (.panic p)
  | .error (.failure _) => .error (.panic .unreachable)

/-! ## What it looks at -/

theorem coalesce_eq {α : Type} [DecidableEq α] {spans : List (Span α)} (h : Span.Separate spans) :
    coalesce (ε := ε) spans = .ok ((Span.merge spans).map fun m => (m.label, m.target)) := by
  refine mapM_eq_ok fun m hm => ?_
  have hle := h.merge.lo_le_hi m hm
  rw [Label.ofBounds, if_neg (by omega)]
  rfl

variable {a : Automaton} {set : StateSet}

theorem acceptsSet_eq (hset : ∀ s ∈ set, s < a.size) :
    acceptsSet (ε := ε) a set = .ok (a.acceptsSet set) :=
  anyM_eq_ok fun s hs => accepting_eq (hset s hs)

/-- The targets of the sweep are members. -/
theorem lt_of_mem_disjointMoves (hw : a.WellFormed) {m : Span StateSet} (hm : m ∈ a.disjointMoves set)
    {t : State} (ht : t ∈ m.target) : t < a.size := by
  rw [(target_of_mem_disjointMoves hm).2, OrderedSet.mem_ofList] at ht
  exact Automaton.lt_of_mem_openAt hw ht

/-- A closure holds the targets of its span, so none is passed over. -/
theorem filter_closedMoves (hw : a.WellFormed) (set : StateSet) :
    ((a.disjointMoves set).map fun m => m.map fun t => a.closure t.toList).filter
        (fun m => !m.target.isEmpty) =
      (a.disjointMoves set).map fun m => m.map fun t => a.closure t.toList := by
  rw [List.filter_eq_self, List.forall_mem_map]
  intro m hm
  obtain ⟨t, ht⟩ := exists_mem_of_mem_disjointMoves hm
  have hclosed : t ∈ a.closure m.target.toList :=
    Automaton.mem_closure_of_mem hw ht (lt_of_mem_disjointMoves hw hm ht)
  rw [Bool.not_eq_true', Bool.eq_false_iff]
  exact fun hempty => OrderedSet.isEmpty_iff.1 hempty t hclosed

theorem subsetMoves_eq (hw : a.WellFormed) (hset : ∀ s ∈ set, s < a.size) :
    subsetMoves (ε := ε) a set = .ok (a.subsetMoves set) := by
  have hclosed : ((a.disjointMoves set).map (Span.map OrderedSet.toList)).mapM (fun m => do
      let t ← closure a m.target
      .ok (m.map fun _ => t)) =
        (.ok ((a.disjointMoves set).map fun m => m.map fun t => a.closure t.toList) :
          Except (Stop ε) (List (Span StateSet))) := by
    rw [List.mapM_map]
    refine mapM_eq_ok fun m hm => ?_
    have htarget : ∀ t ∈ (m.map OrderedSet.toList).target, t < a.size := fun t ht =>
      lt_of_mem_disjointMoves hw hm ht
    rw [Function.comp_apply, closure_eq hw htarget]
    rfl
  unfold subsetMoves
  rw [disjointMoves_eq hset, ok_bind, hclosed, ok_bind, filter_closedMoves hw]
  exact coalesce_eq (Automaton.separate_closedMoves a set)

theorem lt_of_mem_subsetMoves {m : Label × StateSet} (hm : m ∈ a.subsetMoves set) :
    ∀ t ∈ m.2, t < a.size := by
  obtain ⟨c, hc⟩ := Automaton.leads_subsetMoves ⟨m, hm, rfl⟩
  rw [hc]
  exact fun t ht => Automaton.lt_of_mem_closure ht

/-! ## The construction -/

/-- The moves of a set, when its labels are known to be in order. -/
def accountedMoves (a : Automaton) (limit : Option Nat) (cost : Nat) (set : StateSet) :
    Except TooComplex (Nat × List (Label × StateSet)) :=
  charge limit cost set >>= fun cost => .ok (cost, a.subsetMoves set)

theorem chargedMoves_eq (hw : a.WellFormed) (hset : ∀ s ∈ set, s < a.size) (limit : Option Nat)
    (cost : Nat) : chargedMoves a limit cost set = returned (accountedMoves a limit cost set) := by
  unfold chargedMoves accountedMoves
  refine returned_bind fun cost _ => ?_
  rw [subsetMoves_eq hw hset]
  rfl

theorem accountedMoves_some (a : Automaton) (limit : Nat) :
    accountedMoves a (some limit) = a.movesWithin limit := by
  funext cost set
  unfold accountedMoves charge Automaton.movesWithin
  dsimp only
  split <;> rfl

/-- What is explored under a limit, or without one. -/
theorem explore_accountedMoves {s : State} (hs : a.initial = some s) (c : Compiler) :
    (Exploration.explore (accountedMoves a c.limit) a.subsetCount 0 (a.closure [s])).map a.ofSubsets =
      c.determinize a := by
  unfold Compiler.determinize
  cases c.limit with
  | none =>
    have he : Exploration.advance (accountedMoves a none) a.subsetCount 0 (start (a.closure [s])) =
        .ok ((doNext a.subsetMoves)^[a.subsetCount] (start (a.closure [s]))) :=
      advance_eq_iterate holds_start a.subsetCount 0 fun _ _ _ => ⟨_, rfl⟩
    obtain ⟨e, h, hd⟩ := Automaton.explored_determinize hs
    rw [Exploration.explore, he, (Automaton.explored_iterate a s).unique h, hd]
    rfl
  | some limit =>
    unfold Automaton.determinizeWithin Automaton.exploreSubsets
    rw [hs, accountedMoves_some]

theorem determinize_of_initial_eq_none (hs : a.initial = none) (c : Compiler) :
    c.determinize a = .ok .empty := by
  have hempty := Automaton.determinize_of_initial_eq_none hs
  unfold Compiler.determinize
  split
  · rw [hempty]
  · rw [Automaton.determinizeWithin_of_initial_eq_none hs, hempty]

theorem subsetConstruction_eq (hw : a.WellFormed) (c : Compiler) :
    subsetConstruction a c.limit = returned (c.determinize a) := by
  unfold subsetConstruction
  cases hs : a.initial with
  | none =>
    rw [determinize_of_initial_eq_none hs]
    rfl
  | some s =>
    have hseed : ∀ t ∈ [s], t < a.size := fun t ht =>
      List.mem_singleton.1 ht ▸ hw.initial_lt s hs
    have hrow : ∀ cost set cost' row, (∀ s ∈ set, s < a.size) →
        accountedMoves a c.limit cost set = .ok (cost', row) → ∀ m ∈ row, ∀ t ∈ m.2, t < a.size := by
      intro cost set cost' row _ hrow m hm
      obtain ⟨_, -, hrow⟩ := bind_eq_ok_iff.1 hrow
      cases hrow
      exact lt_of_mem_subsetMoves hm
    have hfirst : ∀ t ∈ a.closure [s], t < a.size := fun t ht => Automaton.lt_of_mem_closure ht
    have hexplore := explore_eq (P := fun set : StateSet => ∀ s ∈ set, s < a.size)
      (fun set hset => acceptsSet_eq hset)
      (fun cost set hset => chargedMoves_eq hw hset c.limit cost) hrow id hfirst a.subsetCount 0
    have hresult := explore_accountedMoves hs c
    dsimp only
    rw [closure_eq hw hseed, ok_bind, hexplore, ← hresult]
    cases he : Exploration.explore (accountedMoves a c.limit) a.subsetCount 0 (a.closure [s]) with
    | error e => rfl
    | ok e =>
      rw [he] at hresult
      have hd := Compiler.eq_determinize hresult.symm
      have hdeterministic : (a.ofSubsets e).isDeterministic = true :=
        hd ▸ Automaton.isDeterministic_determinize a
      show (demand ((a.ofSubsets e).isDeterministic = true) _ >>= fun _ => .ok (a.ofSubsets e)) = _
      rw [demand_eq hdeterministic]
      rfl

theorem determinize_eq (hw : a.WellFormed) : determinize (ε := ε) a = .ok a.determinize := by
  unfold determinize
  rw [subsetConstruction_eq hw {}]
  rfl

end PatternAutomata.Guarded
