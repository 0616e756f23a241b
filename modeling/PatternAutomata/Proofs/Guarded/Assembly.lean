import PatternAutomata.Proofs.Assembly
import PatternAutomata.Proofs.Guarded.Text

/-!
# Guarded evaluation

Evaluating a postorder text only ever adds arrows, and the guarded program has each of them checked for
its ends.  A sound assembly holds the states of its fragments, and new states are members at once, so
there is nothing to stop at:

    Sound b → take b t = returned (b.take t)                                          (take_eq)
    ofPostorder text = returned (Automaton.ofPostorder text)                   (ofPostorder_eq)
-/

namespace PatternAutomata.Guarded

open Automaton Assembly

variable {ε : Type}

/-! ## Joining fragments -/

/-- Adds empty moves between members, one after the other. -/
def linkAll (a : Automaton) (links : List (State × State)) : Except (Stop ε) Automaton :=
  links.foldlM (fun a p => served (a.addTransition p.1 .epsilon p.2)) a

/-- Builds a fragment, unless it is built: the automaton with its entry and its exit. -/
def build (a : Automaton) : Fragment → Except (Stop ε) (Automaton × State × State)
  | .pending l => do
    let entry := a.size
    let exit := a.size + 1
    let a ← served (a.addState.addState.addTransition entry l exit)
    .ok (a, entry, exit)
  | .built entry exit => .ok (a, entry, exit)

/-- Two fragments, one after the other. -/
def concat (a : Automaton) (left right : Fragment) : Except (Stop ε) (Automaton × Fragment) := do
  let (a, leftEntry, leftExit) ← build a left
  let (a, rightEntry, rightExit) ← build a right
  let a ← linkAll a [(leftExit, rightEntry)]
  .ok (a, .built leftEntry rightExit)

/-- One fragment or the other, between a new entry and a new exit. -/
def alternate (a : Automaton) (left right : Fragment) : Except (Stop ε) (Automaton × Fragment) := do
  let (a, leftEntry, leftExit) ← build a left
  let (a, rightEntry, rightExit) ← build a right
  let entry := a.size
  let exit := a.size + 1
  let a ← linkAll a.addState.addState
    [(entry, leftEntry), (entry, rightEntry), (leftExit, exit), (rightExit, exit)]
  .ok (a, .built entry exit)

/-- A fragment once or more, between a new entry and a new exit; with `skip`, also not at all. -/
def repeated (skip : Bool) (a : Automaton) (inner : Fragment) :
    Except (Stop ε) (Automaton × Fragment) := do
  let (a, innerEntry, innerExit) ← build a inner
  let entry := a.size
  let exit := a.size + 1
  let a ← linkAll a.addState.addState
    [(entry, innerEntry), (innerExit, exit), (innerExit, innerEntry)]
  let a ← if skip then linkAll a [(entry, exit)] else .ok a
  .ok (a, .built entry exit)

/-- A fragment once or not at all, behind a new entry. -/
def skippable (a : Automaton) (inner : Fragment) : Except (Stop ε) (Automaton × Fragment) := do
  let (a, innerEntry, innerExit) ← build a inner
  let entry := a.size
  let a ← linkAll a.addState [(entry, innerEntry), (entry, innerExit)]
  .ok (a, .built entry innerExit)

section Joining

variable {a : Automaton} {f g : Fragment}

theorem linkAll_eq {links : List (State × State)} (h : ∀ p ∈ links, p.1 < a.size ∧ p.2 < a.size) :
    linkAll (ε := ε) a links = .ok (links.foldl (fun a p => a.link p.1 p.2) a) := by
  refine foldlM_eq_ok (P := fun b => b.size = a.size) rfl fun p hp b hb => ⟨?_, ?_⟩
  · exact addTransition_eq (hb ▸ (h p hp).1) (hb ▸ (h p hp).2) .epsilon
  · exact (size_link b p.1 p.2).trans hb

/-- The states of a fragment that is built now are new members. -/
theorem build_eq (a : Automaton) (f : Fragment) : build (ε := ε) a f = .ok (a.build f) := by
  cases f with
  | pending l =>
    obtain ⟨hentry, hexit⟩ := new_lt_size a
    rw [build, addTransition_eq hentry hexit]
    rfl
  | built entry exit => rfl

theorem concat_eq (h : a.Inert) (hf : a.Holds f) (hg : a.Holds g) :
    concat (ε := ε) a f g = .ok (Assembly.concat a f g) := by
  obtain ⟨a₁, i, o, hbf, h₁, hle₁, hi, ho⟩ := h.build hf
  obtain ⟨a₂, i', o', hbg, h₂, hle₂, hi', ho'⟩ := h₁.build (hg.mono hle₁)
  have ho₂ := Nat.lt_of_lt_of_le ho hle₂
  unfold concat Assembly.concat
  simp only [build_eq, ok_bind, hbf, hbg]
  rw [linkAll_eq (by simp [ho₂, hi'])]
  rfl

theorem alternate_eq (h : a.Inert) (hf : a.Holds f) (hg : a.Holds g) :
    alternate (ε := ε) a f g = .ok (Assembly.alternate a f g) := by
  obtain ⟨a₁, i, o, hbf, h₁, hle₁, hi, ho⟩ := h.build hf
  obtain ⟨a₂, i', o', hbg, h₂, hle₂, hi', ho'⟩ := h₁.build (hg.mono hle₁)
  have hold : ∀ {s}, s < a₂.size → s < a₂.addState.addState.size := fun hs =>
    lt_size_addState (lt_size_addState hs)
  have hi₂ := hold (Nat.lt_of_lt_of_le hi hle₂)
  have ho₂ := hold (Nat.lt_of_lt_of_le ho hle₂)
  obtain ⟨hx, hy⟩ := new_lt_size a₂
  unfold alternate Assembly.alternate
  simp only [build_eq, ok_bind, hbf, hbg]
  rw [linkAll_eq (by simp only [List.forall_mem_cons, hx, hy, hi₂, ho₂, hold hi', hold ho']; simp)]
  rfl

theorem repeated_eq (h : a.Inert) (hf : a.Holds f) (skip : Bool) :
    repeated (ε := ε) skip a f = .ok (Assembly.repeated skip a f) := by
  obtain ⟨a₁, i, o, hbf, h₁, hle, hi, ho⟩ := h.build hf
  have hi₂ := lt_size_addState (lt_size_addState hi)
  have ho₂ := lt_size_addState (lt_size_addState ho)
  obtain ⟨hx, hy⟩ := new_lt_size a₁
  unfold repeated Assembly.repeated
  simp only [build_eq, ok_bind, hbf]
  rw [linkAll_eq (by simp only [List.forall_mem_cons, hx, hy, hi₂, ho₂]; simp), ok_bind]
  cases skip with
  | false => rfl
  | true =>
    rw [if_pos rfl, linkAll_eq]
    · rfl
    · simp only [List.foldl_cons, List.foldl_nil, size_link, List.forall_mem_cons, hx, hy]
      simp

theorem skippable_eq (h : a.Inert) (hf : a.Holds f) :
    skippable (ε := ε) a f = .ok (Assembly.skippable a f) := by
  obtain ⟨a₁, i, o, hbf, h₁, hle, hi, ho⟩ := h.build hf
  have hx : a₁.size < a₁.addState.size := by simp
  unfold skippable Assembly.skippable
  simp only [build_eq, ok_bind, hbf]
  rw [linkAll_eq
    (by simp only [List.forall_mem_cons, hx, lt_size_addState hi, lt_size_addState ho]; simp)]
  rfl

end Joining

/-! ## Taking tokens -/

/-- Applies an operator to the fragments on top of the stack. -/
def apply (b : Assembly) (o : Operator) : Except (Stop PatternError) Assembly :=
  match o, b.stack with
  | .concat, right :: left :: rest => do
    let (a, f) ← concat b.automaton left right
    .ok ⟨a, f :: rest⟩
  | .alternation, right :: left :: rest => do
    let (a, f) ← alternate b.automaton left right
    .ok ⟨a, f :: rest⟩
  | .plus, inner :: rest => do
    let (a, f) ← repeated false b.automaton inner
    .ok ⟨a, f :: rest⟩
  | .star, inner :: rest => do
    let (a, f) ← repeated true b.automaton inner
    .ok ⟨a, f :: rest⟩
  | .optional, inner :: rest => do
    let (a, f) ← skippable b.automaton inner
    .ok ⟨a, f :: rest⟩
  | .range, right :: left :: rest => do
    let f ← returned (composeRange left right)
    .ok ⟨b.automaton, f :: rest⟩
  | o, _ => .error (.failure (.missingOperand o))

/-- Takes one token. -/
def take (b : Assembly) : Token → Except (Stop PatternError) Assembly
  | .symbol c => .ok (b.push (.pending (.symbol c)))
  | .range lo hi => .ok (b.push (.pending (.range lo hi)))
  | .op o => apply b o
  | .leftParen | .rightParen => .error (.failure .unmatchedParenthesis)

/-- The automaton with its initial and its accepting state. -/
def complete (a : Automaton) (entry exit : State) : Except (Stop ε) Automaton := do
  let a ← served (a.setInitial entry)
  served (a.setAccepting exit true)

/-- The automaton when all tokens are taken: nothing stands for the empty text alone. -/
def finish (b : Assembly) : Except (Stop PatternError) Automaton :=
  match b.stack with
  | [] => complete b.automaton.addState b.automaton.size b.automaton.size
  | [f] => do
    let (a, entry, exit) ← build b.automaton f
    complete a entry exit
  | stack => .error (.failure (.danglingOperands stack.length))

/-- The automaton of a postorder text. -/
def ofPostorder (text : List Char) : Except (Stop PatternError) Automaton := do
  let tokens ← scanFrom false text.toArray 0
  let assembly ← tokens.foldlM take {}
  finish assembly

variable {b : Assembly}

theorem apply_eq (h : Sound b) (o : Operator) : apply b o = returned (b.apply o) := by
  obtain ⟨a, stack⟩ := b
  obtain ⟨hinert, hholds⟩ := h
  cases o with
  | concat =>
    match stack with
    | [] | [_] => rfl
    | right :: left :: rest =>
      dsimp only [apply]
      rw [concat_eq hinert (hholds left (by simp)) (hholds right (by simp))]
      rfl
  | alternation =>
    match stack with
    | [] | [_] => rfl
    | right :: left :: rest =>
      dsimp only [apply]
      rw [alternate_eq hinert (hholds left (by simp)) (hholds right (by simp))]
      rfl
  | plus =>
    match stack with
    | [] => rfl
    | inner :: rest =>
      dsimp only [apply]
      rw [repeated_eq hinert (hholds inner (by simp))]
      rfl
  | star =>
    match stack with
    | [] => rfl
    | inner :: rest =>
      dsimp only [apply]
      rw [repeated_eq hinert (hholds inner (by simp))]
      rfl
  | optional =>
    match stack with
    | [] => rfl
    | inner :: rest =>
      dsimp only [apply]
      rw [skippable_eq hinert (hholds inner (by simp))]
      rfl
  | range =>
    match stack with
    | [] | [_] => rfl
    | right :: left :: rest => exact returned_bind fun _ _ => rfl

theorem take_eq (h : Sound b) (t : Token) : take b t = returned (b.take t) := by
  cases t with
  | op o => exact apply_eq h o
  | _ => rfl

theorem complete_eq {a : Automaton} {entry exit : State} (hentry : entry < a.size)
    (hexit : exit < a.size) : complete (ε := ε) a entry exit = .ok (a.completed entry exit) := by
  unfold complete
  rw [setInitial_eq hentry, ok_bind]
  exact setAccepting_eq (a := { a with initial := some entry }) hexit true

theorem finish_eq (h : Sound b) : finish b = returned b.finish := by
  match hs : b.stack with
  | [] =>
    have hnew : b.automaton.size < b.automaton.addState.size := by simp
    unfold finish
    rw [finish_nil hs, hs]
    exact complete_eq hnew hnew
  | [f] =>
    obtain ⟨a₁, i, o, hf, -, -, hi, ho⟩ := h.inert.build (h.stack f (by simp [hs]))
    unfold finish
    rw [finish_singleton hs hf, hs]
    dsimp only
    rw [build_eq, ok_bind, hf]
    exact complete_eq hi ho
  | f :: g :: rest =>
    unfold finish Assembly.finish
    rw [hs]
    rfl

/-- A postorder text has single tokens, so all assemblies that it leads to are sound. -/
theorem ofPostorder_eq (text : List Char) : ofPostorder text = returned (Automaton.ofPostorder text) := by
  unfold ofPostorder Automaton.ofPostorder
  rw [scanFrom_singly]
  refine returned_bind fun ts hscan => ?_
  have hsingle := Token.single_of_scanSingly hscan
  have htake : ts.foldlM take {} = returned (ts.foldlM Assembly.take {}) :=
    foldlM_mapError sound_empty (fun t _ c hc => take_eq hc t)
      fun t ht c c' hc hc' => hc.take (hsingle t ht) hc'
  rw [htake]
  exact returned_bind fun b hb => finish_eq (sound_empty.foldlM_take hsingle hb)

end PatternAutomata.Guarded
