import PatternAutomata.Proofs.Guarded.Assembly
import PatternAutomata.Proofs.Guarded.Minimize

/-!
# The guarded compiler

The readers need nothing of the texts they are given.  Each stage after them hands an automaton to the
next that is as the next one needs it: evaluation gives a well formed one, and the subset construction
one that is deterministic and forward, too.  So the guarded compiler ends as the compiler does, whatever
the text, the levels and the limit are:

    stages c text = returned (c.stages text)                                            (stages_eq)
-/

namespace PatternAutomata

/-- A stop with its failure under another name. -/
def Stop.map {ε ε' : Type} (f : ε → ε') : Stop ε → Stop ε'
  | .panic p => .panic p
  | .failure e => .failure (f e)

namespace Guarded

variable {ε ε' α : Type}

theorem mapError_returned (x : Except ε α) (f : ε → ε') :
    (returned x).mapError (Stop.map f) = returned (x.mapError f) := by
  cases x <;> rfl

/-- The last step. -/
def conclude (explicit postorder : List Char) (nfa dfa : Automaton) : Except (Stop ε) Stages := do
  let minimal ← minimize dfa
  .ok { explicit, postorder, nfa, dfa, minimal }

/-- All steps for a pattern, without a limit. -/
def unbounded (p : Precedence) (text : List Char) : Except (Stop PatternError) Stages := do
  let explicit ← explicit text
  let postorder ← postorder p explicit
  let nfa ← ofPostorder postorder
  let dfa ← determinize nfa
  conclude explicit postorder nfa dfa

/-- All steps for a pattern, under a limit. -/
def bounded (p : Precedence) (limit : Nat) (text : List Char) : Except (Stop Failure) Stages := do
  let explicit ← (explicit text).mapError (.map .pattern)
  let postorder ← (postorder p explicit).mapError (.map .pattern)
  let nfa ← (ofPostorder postorder).mapError (.map .pattern)
  let dfa ← (subsetConstruction nfa (some limit)).mapError (.map .tooComplex)
  conclude explicit postorder nfa dfa

/-- All steps for a pattern, under the limit if there is one. -/
def stages (c : Compiler) (text : List Char) : Except (Stop Failure) Stages :=
  match c.limit with
  | none => (unbounded c.precedence text).mapError (.map .pattern)
  | some limit => bounded c.precedence limit text

section Stages

variable {p : Precedence} {text : List Char}

/-- The readers and the evaluation need nothing of a pattern, whatever comes after them. -/
theorem front_bind_eq {next : List Char → List Char → Automaton → Except (Stop Failure) Stages}
    {next' : List Char × List Char × Automaton → Except Failure Stages}
    (h : ∀ x y nfa, Compiler.front p text = .ok (x, y, nfa) → next x y nfa = returned (next' (x, y, nfa))) :
    (do
      let x ← (explicit text).mapError (.map .pattern)
      let y ← (postorder p x).mapError (.map .pattern)
      let nfa ← (ofPostorder y).mapError (.map .pattern)
      next x y nfa) = returned ((Compiler.front p text).mapError .pattern >>= next') := by
  unfold Compiler.front
  simp only [mapError_bind, bind_assoc]
  rw [explicit_eq, mapError_returned]
  refine returned_bind fun x hx => ?_
  rw [postorder_eq, mapError_returned]
  refine returned_bind fun y hy => ?_
  rw [ofPostorder_eq, mapError_returned]
  refine returned_bind fun nfa hnfa => ?_
  exact h x y nfa (Compiler.front_eq_ok_iff.2 ⟨mapError_eq_ok_iff.1 hx, mapError_eq_ok_iff.1 hy,
    mapError_eq_ok_iff.1 hnfa⟩)

/-- The subset construction gives what the last step requires. -/
theorem exists_conclude {nfa : Automaton} {s : State} (hs : nfa.initial = some s) (x y : List Char) :
    ∃ st, Compiler.conclude x y nfa nfa.determinize = .ok st ∧
      ∀ ε, conclude (ε := ε) x y nfa nfa.determinize = .ok st := by
  obtain ⟨m, hm, -⟩ := Automaton.exists_minimize_determinize hs
  refine ⟨_, Compiler.conclude_eq hm, fun ε => ?_⟩
  rw [conclude, minimize_eq (Automaton.wellFormed_determinize nfa)
    (Automaton.isDeterministic_determinize nfa), hm]
  rfl

/-- Nothing that the guarded compiler checks fails, on either path. -/
theorem stages_eq (c : Compiler) (text : List Char) : stages c text = returned (c.stages text) := by
  obtain ⟨p, limit⟩ := c
  rw [Compiler.stages_eq]
  cases limit with
  | none =>
    unfold stages unbounded
    simp only [mapError_bind]
    refine front_bind_eq fun x y nfa hfront => ?_
    obtain ⟨hw, -, s, hs⟩ := (Compiler.assembles_of_front hfront).spec
    obtain ⟨st, hst, hguarded⟩ := exists_conclude hs x y
    rw [determinize_eq hw]
    show (conclude x y nfa nfa.determinize).mapError _ =
      returned (Compiler.conclude x y nfa nfa.determinize)
    rw [hguarded, hst]
    rfl
  | some limit =>
    refine front_bind_eq fun x y nfa hfront => ?_
    obtain ⟨hw, -, s, hs⟩ := (Compiler.assembles_of_front hfront).spec
    obtain ⟨st, hst, hguarded⟩ := exists_conclude hs x y
    rw [subsetConstruction_eq hw ⟨p, some limit⟩, mapError_returned]
    refine returned_bind fun dfa hdfa => ?_
    cases Compiler.eq_determinize (mapError_eq_ok_iff.1 hdfa)
    rw [hguarded, hst]
    rfl

end Stages

end Guarded

end PatternAutomata
