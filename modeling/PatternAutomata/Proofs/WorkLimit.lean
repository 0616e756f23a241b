import PatternAutomata.Proofs.Compiler
import PatternAutomata.Proofs.InStep

/-!
# What a work limit decides

An exploration that pays the weight of each key does the same keys as one that pays nothing, until
what it has spent reaches the cap (`Exploration.advance_charged`).  Weights only add up, so whether
it gets to the end depends on the total.  For the subset construction the total is the size of all
origins of the result, `work`:

    a.determinizeWithin limit = .error ⟨limit⟩         if budget limit ≤ a.work
    a.determinizeWithin limit = .ok a.determinize      otherwise             (determinizeWithin_eq)

The budget is spent when the work reaches it, so work of exactly ten times the limit is too much
(`determinizeWithin_fails_iff`).

Under a limit a compiler gives what it gives without one, or fails for the limit
(`Compiler.stages_cases`), and a larger limit changes no result (`Compiler.limited_agrees`).
-/

namespace PatternAutomata

/-! ## Explorations that pay -/

namespace Exploration

variable {κ ε : Type} [StrictTotal κ] {f : κ → List (Label × κ)} {weight : κ → Nat} {cap fuel : Nat}
  {err : ε} {e : Exploration κ} {first k : κ}

/-- What the keys that are done weigh together. -/
def spent (weight : κ → Nat) (e : Exploration κ) : Nat :=
  (e.met.keys.toList.take e.rows.size).foldl (fun n k => n + weight k) 0

/-- Explorations in step spend the same when related keys weigh the same. -/
theorem InStep.spent_eq {κ' : Type} [StrictTotal κ'] {R : κ → κ' → Prop} {e' : Exploration κ'}
    {weight' : κ' → Nat} (h : InStep R e e') (hweight : ∀ k k', R k k' → weight k = weight' k') :
    spent weight e = spent weight' e' := by
  unfold spent
  rw [← h.rows]
  refine List.rel_foldl (fun n n' hn k k' hk => ?_) rfl (List.forall₂_take _ h.keys)
  rw [hn, hweight k k' hk]

/-- The moves of a key, whose weight is paid first, unless what is spent then reaches the cap. -/
def charged (f : κ → List (Label × κ)) (weight : κ → Nat) (cap : Nat) (err : ε) (account : Nat)
    (k : κ) : Except ε (Nat × List (Label × κ)) :=
  if cap ≤ account + weight k then .error err else .ok (account + weight k, f k)

theorem spent_doNext (hk : e.met.keys[e.rows.size]? = some k) :
    spent weight (doNext f e) = spent weight e + weight k := by
  -- The keys that were done keep their places, and `k` is the next one.
  have htake : (meet e.met (f k)).keys.toList.take (e.rows.size + 1) =
      e.met.keys.toList.take e.rows.size ++ [k] := by
    have hlast : (meet e.met (f k)).keys.toList[e.rows.size]? = some k := by
      rw [Array.getElem?_toList, getElem?_meet hk]
    rw [List.take_add_one, hlast]
    congr 1
    ext1 i
    rw [List.getElem?_take, List.getElem?_take]
    by_cases hi : i < e.rows.size
    · have hlt : i < e.met.keys.size := Nat.lt_trans hi (Array.getElem?_eq_some_iff.1 hk).1
      have hi' := Array.getElem?_eq_getElem hlt
      rw [if_pos hi, if_pos hi, Array.getElem?_toList, Array.getElem?_toList, hi',
        getElem?_meet hi']
    · rw [if_neg hi, if_neg hi]
  unfold spent
  rw [doNext_of_some hk, Array.size_push, htake, List.foldl_append]
  rfl

theorem spent_le_doNext : spent weight e ≤ spent weight (doNext f e) := by
  cases hk : e.met.keys[e.rows.size]? with
  | none => rw [doNext_of_none hk]
  | some k =>
    rw [spent_doNext hk]
    exact Nat.le_add_right _ _

theorem spent_le_iterate (n : Nat) (e : Exploration κ) :
    spent weight e ≤ spent weight ((doNext f)^[n] e) := by
  induction n generalizing e with
  | zero => exact Nat.le_refl _
  | succ n ih =>
    rw [Function.iterate_succ_apply]
    exact Nat.le_trans spent_le_doNext (ih (doNext f e))

/-- One key is paid for. -/
theorem advance_charged_succ (hk : e.met.keys[e.rows.size]? = some k) :
    advance (charged f weight cap err) (fuel + 1) (spent weight e) e =
      if cap ≤ spent weight (doNext f e) then .error err
      else advance (charged f weight cap err) fuel (spent weight (doNext f e)) (doNext f e) := by
  rw [spent_doNext hk]
  by_cases hcap : cap ≤ spent weight e + weight k
  · rw [if_pos hcap]
    exact advance_of_error hk (if_pos hcap)
  · rw [if_neg hcap]
    exact advance_of_ok hk (if_neg hcap)

/-- An exploration that pays ends where one that does not ends, if what is spent there is below the
cap, and fails otherwise. -/
theorem advance_charged (hk : e.met.keys[e.rows.size]? = some k) :
    advance (charged f weight cap err) (fuel + 1) (spent weight e) e =
      if cap ≤ spent weight ((doNext f)^[fuel + 1] e) then .error err
      else .ok ((doNext f)^[fuel + 1] e) := by
  induction fuel generalizing e k with
  | zero => exact advance_charged_succ hk
  | succ fuel ih =>
    rw [advance_charged_succ hk, Function.iterate_succ_apply]
    by_cases hcap : cap ≤ spent weight (doNext f e)
    · rw [if_pos hcap, if_pos (Nat.le_trans hcap (spent_le_iterate _ _))]
    · rw [if_neg hcap]
      cases hnext : (doNext f e).met.keys[(doNext f e).rows.size]? with
      | none =>
        rw [advance_of_none hnext, Function.iterate_fixed (doNext_of_none hnext), if_neg hcap]
      | some k' => exact ih hnext

theorem explore_charged :
    explore (charged f weight cap err) (fuel + 1) 0 first =
      if cap ≤ spent weight ((doNext f)^[fuel + 1] (start first)) then .error err
      else .ok ((doNext f)^[fuel + 1] (start first)) := by
  -- Nothing is spent at the start.
  show advance (charged f weight cap err) (fuel + 1) (spent weight (start first)) (start first) = _
  exact advance_charged (holds_start (f := f)).starts

end Exploration

/-! ## The subset construction -/

namespace Automaton

open Exploration

variable {a : Automaton} {s : State}

/-- The sizes of all sets that the subset construction meets. -/
def work (a : Automaton) : Nat :=
  a.determinize.nodes.foldl (fun k n => k + n.origin.elim 0 OrderedSet.size) 0

theorem work_eq_spent {e : Exploration StateSet} {first : StateSet}
    (h : Explored a.subsetMoves first e) (he : a.determinize = a.ofSubsets e) :
    a.work = spent OrderedSet.size e := by
  have hsizes : (a.ofSubsets e).nodes.toList.map (fun n => n.origin.elim 0 OrderedSet.size) =
      e.met.keys.toList.map OrderedSet.size := by
    ext1 i
    rw [List.getElem?_map, List.getElem?_map, Array.getElem?_toList, Array.getElem?_toList,
      ofSubsets, getElem?_nodes, Option.map_map]
    rfl
  have hall : e.met.keys.toList.take e.rows.size = e.met.keys.toList := by
    rw [h.done, ← Array.length_toList, List.take_length]
  unfold work spent
  rw [he, hall]
  calc (a.ofSubsets e).nodes.foldl (fun k n => k + n.origin.elim 0 OrderedSet.size) 0
      = ((a.ofSubsets e).nodes.toList.map fun n => n.origin.elim 0 OrderedSet.size).foldl
          (· + ·) 0 := by rw [List.foldl_map, Array.foldl_toList]
    _ = (e.met.keys.toList.map OrderedSet.size).foldl (· + ·) 0 := by rw [hsizes]
    _ = e.met.keys.toList.foldl (fun n S => n + S.size) 0 := List.foldl_map

/-- A work limit decides whether there is a result, and not which. -/
theorem determinizeWithin_eq (hs : a.initial = some s) (limit : Nat) :
    a.determinizeWithin limit =
      if budget limit ≤ a.work then .error ⟨limit⟩ else .ok a.determinize := by
  obtain ⟨e, h, he⟩ := explored_determinize hs
  have hpos : 0 < a.subsetCount := Nat.two_pow_pos _
  obtain ⟨fuel, hfuel⟩ : ∃ fuel, a.subsetCount = fuel + 1 := ⟨_, (Nat.succ_pred_eq_of_pos hpos).symm⟩
  have hend : (doNext a.subsetMoves)^[fuel + 1] (start (a.closure [s])) = e :=
    hfuel ▸ (explored_iterate a s).unique h
  have hwithin : explore (a.movesWithin limit) a.subsetCount 0 (a.closure [s]) =
      if budget limit ≤ a.work then .error ⟨limit⟩ else .ok e := by
    rw [work_eq_spent h he, ← hend, hfuel]
    exact explore_charged
  unfold determinizeWithin exploreSubsets
  simp only [hs]
  rw [hwithin]
  by_cases hwork : budget limit ≤ a.work
  · rw [if_pos hwork, if_pos hwork]
    rfl
  · rw [if_neg hwork, if_neg hwork, he]
    rfl

/-- Up to the largest budget the work must stay below ten times the limit.  A limit that only forbids
more than this would decide differently for exactly this amount of work, and for no other. -/
theorem determinizeWithin_fails_iff {limit : Nat} (hs : a.initial = some s)
    (hlimit : 10 * limit < 2 ^ 64) :
    ((∃ e, a.determinizeWithin limit = .error e) ↔ 10 * limit ≤ a.work) ∧
      (a.determinizeWithin limit = .ok a.determinize ↔ a.work < 10 * limit) ∧
      (((∃ e, a.determinizeWithin limit = .error e) ↔ 10 * limit < a.work) ↔ a.work ≠ 10 * limit) := by
  have hbudget : budget limit = 10 * limit := by
    have hmax : maxBudget = 2 ^ 64 - 1 := rfl
    unfold budget
    omega
  rw [determinizeWithin_eq hs, hbudget]
  by_cases hwork : 10 * limit ≤ a.work
  · simp only [if_pos hwork]
    refine ⟨by simp [hwork], by simp [hwork], ?_⟩
    simp only [Except.error.injEq, exists_eq', true_iff]
    omega
  · simp only [if_neg hwork]
    refine ⟨by simp [hwork], by simpa using hwork, ?_⟩
    simp only [reduceCtorEq, exists_false, false_iff]
    omega

/-- States that empty moves lead down one after the other, and labels to each of them: the closed sets
have 4, 3, 2 and 1 members. -/
def stairs : Automaton where
  nodes := #[
    { name := "S0",
      arrows := .ofList [⟨.epsilon, 1⟩, ⟨.symbol 'a', 1⟩, ⟨.symbol 'b', 2⟩, ⟨.symbol 'c', 3⟩] },
    { name := "S1", arrows := .ofList [⟨.epsilon, 2⟩] },
    { name := "S2", arrows := .ofList [⟨.epsilon, 3⟩] },
    { name := "S3", accepting := true }]
  initial := some 0

theorem work_stairs : stairs.work = 10 := by decide +kernel

theorem determinizeWithin_fails_iff_stairs :
    stairs.initial = some 0 ∧ 10 * 1 < 2 ^ 64 ∧ stairs.work = 10 * 1 ∧
      ((∃ e, stairs.determinizeWithin 1 = .error e) ↔ 10 * 1 ≤ stairs.work) ∧
      (stairs.determinizeWithin 1 = .ok stairs.determinize ↔ stairs.work < 10 * 1) ∧
      (((∃ e, stairs.determinizeWithin 1 = .error e) ↔ 10 * 1 < stairs.work) ↔
        stairs.work ≠ 10 * 1) :=
  ⟨rfl, by decide, work_stairs, determinizeWithin_fails_iff rfl (by decide)⟩

/-- Work of exactly ten times the limit is not more than that, and is refused. -/
theorem not_determinizeWithin_fails_iff_lt :
    ¬ ∀ (a : Automaton) (s : State) (limit : Nat), a.WellFormed → a.initial = some s →
      10 * limit < 2 ^ 64 →
        ((∃ e, a.determinizeWithin limit = .error e) ↔ 10 * limit < a.work) := by
  intro h
  have hfails : stairs.determinizeWithin 1 = .error ⟨1⟩ := by decide +kernel
  have hmore := (h stairs 0 1 (by decide) rfl (by decide)).1 ⟨_, hfails⟩
  rw [work_stairs] at hmore
  exact absurd hmore (by decide)

theorem determinizeWithin_of_initial_eq_none (hs : a.initial = none) (limit : Nat) :
    a.determinizeWithin limit = .ok a.determinize := by
  rw [determinize_of_initial_eq_none hs]
  unfold determinizeWithin exploreSubsets
  rw [hs]

/-- A larger limit allows no less. -/
theorem budget_mono {limit limit' : Nat} (h : limit ≤ limit') : budget limit ≤ budget limit' := by
  unfold budget
  omega

/-- Under a limit the result is the one without a limit, or the limit is to blame. -/
theorem determinizeWithin_cases (a : Automaton) (limit : Nat) :
    a.determinizeWithin limit = .ok a.determinize ∨ a.determinizeWithin limit = .error ⟨limit⟩ := by
  cases hs : a.initial with
  | none => exact .inl (determinizeWithin_of_initial_eq_none hs limit)
  | some s =>
    rw [determinizeWithin_eq hs]
    by_cases hwork : budget limit ≤ a.work
    · exact .inr (if_pos hwork)
    · exact .inl (if_neg hwork)

/-- What a limit suffices for, a larger limit suffices for. -/
theorem ok_of_ite_budget {ε α : Type} {limit limit' work : Nat} {err err' : ε} {x y : α}
    (hle : limit ≤ limit')
    (h : (if budget limit ≤ work then Except.error err else .ok x) = .ok y) :
    (if budget limit' ≤ work then Except.error err' else .ok x) = .ok y := by
  have hbudget := budget_mono hle
  by_cases hwork : budget limit ≤ work
  · rw [if_pos hwork] at h
    cases h
  · rw [if_neg hwork] at h
    rw [if_neg (by omega), h]

theorem determinizeWithin_mono {limit limit' : Nat} {d : Automaton} (hle : limit ≤ limit')
    (h : a.determinizeWithin limit = .ok d) : a.determinizeWithin limit' = .ok d := by
  cases hs : a.initial with
  | none =>
    rw [determinizeWithin_of_initial_eq_none hs] at h ⊢
    exact h
  | some s =>
    rw [determinizeWithin_eq hs] at h ⊢
    exact ok_of_ite_budget hle h

end Automaton

/-! ## Compiling -/

namespace Compiler

open Automaton

/-- The result is the same under each limit that suffices. -/
theorem eq_determinize {c : Compiler} {a d : Automaton} (h : c.determinize a = .ok d) :
    d = a.determinize := by
  unfold Compiler.determinize at h
  split at h
  · exact (Except.ok.inj h).symm
  · next limit _ =>
    rcases determinizeWithin_cases a limit with hd | hd
    · exact Except.ok.inj (h.symm.trans hd)
    · cases h.symm.trans hd

/-- A pattern fails whatever the limit is, or compiles under each limit that suffices for its
nondeterministic automaton. -/
theorem stages_cases (p : Precedence) (text : List Char) :
    (∃ e, ∀ limit, ({ precedence := p, limit := limit } : Compiler).stages text =
      .error (.pattern e)) ∨
    ∃ st, ({ precedence := p } : Compiler).stages text = .ok st ∧
      ∀ limit, ({ precedence := p, limit := some limit } : Compiler).stages text =
        if budget limit ≤ st.nfa.work then .error (.tooComplex ⟨limit⟩) else .ok st := by
  cases hfront : front p text with
  | error e =>
    left
    refine ⟨e, fun limit => ?_⟩
    rw [stages_eq, hfront]
    rfl
  | ok result =>
    right
    obtain ⟨x, y, nfa⟩ := result
    obtain ⟨-, -, s, hs⟩ := (assembles_of_front hfront).spec
    obtain ⟨m, hm, -⟩ := exists_minimize_determinize hs
    refine ⟨⟨x, y, nfa, nfa.determinize, m⟩, ?_, fun limit => ?_⟩
    · rw [stages_eq, hfront]
      exact conclude_eq hm
    · rw [stages_eq, hfront]
      show ((nfa.determinizeWithin limit).mapError _ >>= _) = _
      rw [determinizeWithin_eq hs]
      split
      · rfl
      · exact conclude_eq hm

/-- A work limit changes neither which patterns fail to be read nor what a pattern compiles to; it
may fail itself, and a larger one fails less.  The same holds for determinizing. -/
theorem limited_agrees :
    (∀ (p : Precedence) (text : List Char) (limit : Nat),
      (∀ e, ({ precedence := p } : Compiler).stages text = .error e →
        ({ precedence := p, limit := some limit } : Compiler).stages text = .error e ∧
          ∃ reason, e = .pattern reason) ∧
      (∀ st, ({ precedence := p } : Compiler).stages text = .ok st →
        ({ precedence := p, limit := some limit } : Compiler).stages text = .ok st ∨
        ({ precedence := p, limit := some limit } : Compiler).stages text =
          .error (.tooComplex ⟨limit⟩)) ∧
      ∀ st limit', ({ precedence := p, limit := some limit } : Compiler).stages text = .ok st →
        limit ≤ limit' →
        ({ precedence := p, limit := some limit' } : Compiler).stages text = .ok st) ∧
    ∀ (a : Automaton) (limit : Nat),
      (a.determinizeWithin limit = .ok a.determinize ∨
        a.determinizeWithin limit = .error ⟨limit⟩) ∧
      ∀ d limit', a.determinizeWithin limit = .ok d → limit ≤ limit' →
        a.determinizeWithin limit' = .ok d := by
  constructor
  · intro p text limit
    rcases stages_cases p text with ⟨reason, herror⟩ | ⟨st, hst, hlimited⟩
    · -- Every compiler with these levels fails for this reason.
      have hnone : ∀ limit st, ({ precedence := p, limit := limit } : Compiler).stages text ≠ .ok st := by
        intro limit st h
        rw [herror] at h
        cases h
      refine ⟨?_, ?_, ?_⟩
      · intro e h
        cases (herror none).symm.trans h
        exact ⟨herror _, reason, rfl⟩
      · intro st h
        exact absurd h (hnone _ st)
      · intro st limit' h
        exact absurd h (hnone _ st)
    · refine ⟨?_, ?_, ?_⟩
      · intro e h
        cases hst.symm.trans h
      · intro st' h
        cases hst.symm.trans h
        rw [hlimited]
        by_cases hwork : budget limit ≤ st.nfa.work
        · exact .inr (if_pos hwork)
        · exact .inl (if_neg hwork)
      · intro st' limit' h hle
        rw [hlimited] at h ⊢
        exact ok_of_ite_budget hle h
  · intro a limit
    refine ⟨determinizeWithin_cases a limit, ?_⟩
    intro d limit' h hle
    exact determinizeWithin_mono hle h

theorem limited_agrees_letters :
    (∃ e, ({} : Compiler).stages ['a', '|'] = .error e ∧
      ({ limit := some 3 } : Compiler).stages ['a', '|'] = .error e) ∧
    (∃ st, ({} : Compiler).stages ['a', 'b'] = .ok st ∧
      ({ limit := some 0 } : Compiler).stages ['a', 'b'] = .error (.tooComplex ⟨0⟩) ∧
      ({ limit := some 1 } : Compiler).stages ['a', 'b'] = .ok st ∧
      ({ limit := some 2 } : Compiler).stages ['a', 'b'] = .ok st) ∧
    ∃ d, overlapping.determinizeWithin 1 = .ok d ∧ overlapping.determinizeWithin 2 = .ok d := by
  obtain ⟨hstages, hdeterminize⟩ := limited_agrees
  refine ⟨?_, ?_, ?_⟩
  · cases h : ({} : Compiler).stages ['a', '|'] with
    | error e => exact ⟨e, rfl, ((hstages .standard ['a', '|'] 3).1 e h).1⟩
    | ok st =>
      have hfails : (({} : Compiler).stages ['a', '|']).isOk = false := by decide +kernel
      rw [h] at hfails
      cases hfails
  · have hzero : (({ limit := some 0 } : Compiler).stages ['a', 'b']).isOk = false := by
      decide +kernel
    have hone : (({ limit := some 1 } : Compiler).stages ['a', 'b']).isOk = true := by
      decide +kernel
    obtain ⟨st, h⟩ := exists_eq_ok_of_isOk
      (x := ({} : Compiler).stages ['a', 'b']) (by decide +kernel)
    have hok : ({ limit := some 1 } : Compiler).stages ['a', 'b'] = .ok st := by
      rcases (hstages .standard ['a', 'b'] 1).2.1 st h with h' | h'
      · exact h'
      · rw [h'] at hone
        cases hone
    refine ⟨st, h, ?_, hok, (hstages .standard ['a', 'b'] 1).2.2 st 2 hok (by decide)⟩
    rcases (hstages .standard ['a', 'b'] 0).2.1 st h with h' | h'
    · rw [h'] at hzero
      cases hzero
    · exact h'
  · obtain ⟨d, h⟩ := exists_eq_ok_of_isOk
      (x := overlapping.determinizeWithin 1) (by decide +kernel)
    exact ⟨d, h, (hdeterminize overlapping 1).2 d 2 h (by decide)⟩

end Compiler

end PatternAutomata
