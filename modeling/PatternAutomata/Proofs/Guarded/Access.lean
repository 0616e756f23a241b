import PatternAutomata.Automaton.Basic
import PatternAutomata.Proofs.Sequencing

/-!
# Programs that check what they rely on

The definitions of this library are total: a place outside of an array reads as a default, and an arrow
between states that are not members is simply lost.  A *guarded* program stops there instead.  It ends
with a result, with an error that it returns, or in a `Panic`:

    a request that an automaton does not serve      misuse
    a place outside of an array                     outOfBounds
    a case that was held to be impossible           unreachable

For each definition `f` that a compilation uses there is a guarded one of the same name, and a lemma
`f_eq` says when the two agree.  The elementary ones are here.
-/

namespace PatternAutomata

/-- What a program stops at because it was held to be impossible. -/
inductive Panic where
  | misuse (m : Misuse)
  | outOfBounds (place size : Nat)
  | unreachable

/-- How a guarded program ends without a result. -/
inductive Stop (ε : Type) where
  | panic (p : Panic)
  | failure (e : ε)

namespace Guarded

variable {ε α β : Type}

/-! ## Guards -/

/-- Goes on if `p` holds, and panics otherwise. -/
def demand (p : Prop) [Decidable p] (otherwise : Panic) : Except (Stop ε) Unit :=
  if p then .ok () else .error (.panic otherwise)

/-- What an automaton refuses is a panic. -/
def served (x : Except Misuse α) : Except (Stop ε) α := x.mapError fun m => .panic (.misuse m)

/-- What fails in any other way is returned. -/
def returned (x : Except ε α) : Except (Stop ε) α := x.mapError .failure

/-- The entry of an array at a place. -/
def fetch (xs : Array α) (i : Nat) : Except (Stop ε) α :=
  match xs[i]? with
  | some x => .ok x
  | none => .error (.panic (.outOfBounds i xs.size))

/-- An array with another entry at a place. -/
def store (xs : Array α) (i : Nat) (x : α) : Except (Stop ε) (Array α) := do
  demand (i < xs.size) (.outOfBounds i xs.size)
  .ok (xs.setIfInBounds i x)

theorem demand_eq {p : Prop} [Decidable p] {otherwise : Panic} (h : p) :
    demand (ε := ε) p otherwise = .ok () := if_pos h

theorem returned_bind {x : Except ε α} {f : α → Except ε β} {g : α → Except (Stop ε) β}
    (h : ∀ y, x = .ok y → g y = returned (f y)) : returned x >>= g = returned (x >>= f) := by
  cases x with
  | error e => rfl
  | ok y => exact h y rfl

theorem fetch_eq {xs : Array α} {i : Nat} {x : α} (h : xs[i]? = some x) :
    fetch (ε := ε) xs i = .ok x := by
  unfold fetch
  rw [h]

theorem store_eq {xs : Array α} {i : Nat} (h : i < xs.size) (x : α) :
    store (ε := ε) xs i x = .ok (xs.setIfInBounds i x) := by
  rw [store, demand_eq h, ok_bind]

/-! ## Automata -/

/-- The outgoing arrows of a member. -/
def arrows (a : Automaton) (s : State) : Except (Stop ε) (List Arrow) := do
  let n ← served (a.node s)
  .ok n.arrows.toList

/-- Whether a member accepts. -/
def accepting (a : Automaton) (s : State) : Except (Stop ε) Bool := do
  let n ← served (a.node s)
  .ok n.accepting

variable {a : Automaton} {s t : State}

theorem arrows_eq (h : s < a.size) : arrows (ε := ε) a s = .ok (a.arrows s) := by
  have hn : a.nodes[s]? = some a.nodes[s] := Array.getElem?_eq_getElem h
  unfold arrows Automaton.node Automaton.arrows
  rw [hn]
  rfl

theorem accepting_eq (h : s < a.size) : accepting (ε := ε) a s = .ok (a.accepting s) := by
  have hn : a.nodes[s]? = some a.nodes[s] := Array.getElem?_eq_getElem h
  unfold accepting Automaton.node Automaton.accepting
  rw [hn]
  rfl

theorem addTransition_eq (hs : s < a.size) (ht : t < a.size) (l : Label) :
    served (ε := ε) (a.addTransition s l t) = .ok (a.connect s l t) := by
  unfold Automaton.addTransition
  rw [if_neg (not_not_intro hs), if_neg (not_not_intro ht)]
  rfl

theorem setAccepting_eq (h : s < a.size) (flag : Bool) :
    served (ε := ε) (a.setAccepting s flag) =
      .ok (a.modifyNode s fun n => { n with accepting := flag }) := by
  unfold Automaton.setAccepting
  rw [if_pos h]
  rfl

theorem setInitial_eq (h : s < a.size) :
    served (ε := ε) (a.setInitial s) = .ok { a with initial := some s } := by
  unfold Automaton.setInitial
  rw [if_pos h]
  rfl

end Guarded

end PatternAutomata
