import PatternAutomata.Automaton.Determinism
import PatternAutomata.Proofs.Construction
import PatternAutomata.Proofs.Postorder

/-!
# Evaluating a postorder text

Taking a token changes the number of waiting fragments by the weight of the token (`length_take`) and
keeps the automaton sound (`Sound.take`): nothing accepts yet, and arrows ascend and lead to members.
So an automaton that is finished is well formed and forward (`finish_spec`), and the text it comes from
is empty or has a net of one operand.

    Evaluates n ts m → taking ts succeeds on n fragments and leaves m      (exists_take)
-/

namespace PatternAutomata

open Token

/-- The first bound of a label does not lie behind the second. -/
def Label.Ascends (l : Label) : Prop :=
  ∀ lo hi, l.bounds? = some (lo, hi) → lo.toNat ≤ hi.toNat

theorem Label.ascends_epsilon : Label.epsilon.Ascends := fun _ _ h => by cases h

theorem Label.ascends_symbol (c : Char) : (Label.symbol c).Ascends := by
  rintro _ _ ⟨⟩
  exact Nat.le_refl _

theorem Label.ascends_range {lo hi : Char} (h : isRange lo hi = true) :
    (Label.range lo hi).Ascends := by
  rintro _ _ ⟨⟩
  rw [isRange, Bool.and_eq_true, decide_eq_true_eq] at h
  exact Nat.le_of_lt h.2

namespace Automaton

/-! ## Automata under construction -/

/-- Nothing is initial or accepts, and arrows ascend and lead to members. -/
structure Inert (a : Automaton) : Prop where
  initial : a.initial = none
  accepting : ∀ s, a.accepting s = false
  arrows : ∀ s, ∀ r ∈ a.arrows s, r.dest < a.size ∧ r.label.Ascends

/-- Whether the states of a fragment are members, or its label ascends. -/
def Holds (a : Automaton) : Fragment → Prop
  | .pending l => l.Ascends
  | .built entry exit => entry < a.size ∧ exit < a.size

theorem Holds.mono {a a' : Automaton} {f : Fragment} (h : a.Holds f) (hs : a.size ≤ a'.size) :
    a'.Holds f := by
  cases f with
  | pending l => exact h
  | built i o => exact ⟨Nat.lt_of_lt_of_le h.1 hs, Nat.lt_of_lt_of_le h.2 hs⟩

theorem inert_empty : Inert {} :=
  ⟨rfl, fun _ => rfl, fun s r hr => by
    have he : (({} : Automaton).arrows s) = [] := arrows_of_le (Nat.zero_le s)
    rw [he] at hr
    cases hr⟩

theorem Inert.addState {a : Automaton} (h : a.Inert) : a.addState.Inert := by
  refine ⟨h.initial, fun s => by rw [accepting_addState, h.accepting], fun s r hr => ?_⟩
  rw [arrows_addState] at hr
  obtain ⟨hd, hl⟩ := h.arrows s r hr
  rw [size_addState]
  exact ⟨Nat.lt_succ_of_lt hd, hl⟩

theorem Inert.connect {a : Automaton} (h : a.Inert) {s t : State} {l : Label} (hs : s < a.size)
    (ht : t < a.size) (hl : l.Ascends) : (a.connect s l t).Inert := by
  refine ⟨h.initial, fun u => by rw [accepting_connect, h.accepting], fun u r hr => ?_⟩
  rw [size_connect]
  rcases (mem_arrows_connect hs).1 hr with ⟨-, rfl⟩ | hr
  · exact ⟨ht, hl⟩
  · exact h.arrows u r hr

/-- Empty moves to members keep an automaton inert. -/
theorem Inert.adds {a a' : Automaton} {links : List (State × State)} (h : a.Inert)
    (ha : Adds a a' links) (hl : ∀ s t, (s, t) ∈ links → t < a'.size) : a'.Inert := by
  refine ⟨ha.initial.trans h.initial, fun s => (ha.accepting s).trans (h.accepting s),
    fun s r hr => ?_⟩
  rcases (ha.arrows s r).1 hr with ⟨t, ht, rfl⟩ | hr
  · exact ⟨hl s t ht, Label.ascends_epsilon⟩
  · obtain ⟨hd, hr⟩ := h.arrows s r hr
    exact ⟨Nat.lt_of_lt_of_le hd ha.size, hr⟩

theorem Inert.build {a : Automaton} (h : a.Inert) {f : Fragment} (hf : a.Holds f) :
    ∃ a₁ i o, a.build f = (a₁, i, o) ∧ a₁.Inert ∧ a.size ≤ a₁.size ∧ i < a₁.size ∧ o < a₁.size := by
  cases f with
  | pending l =>
    obtain ⟨hentry, hexit⟩ := new_lt_size a
    refine ⟨_, _, _, rfl, h.addState.addState.connect hentry hexit hf, ?_⟩
    rw [size_connect]
    exact ⟨Nat.le_of_lt hentry, hentry, hexit⟩
  | built i o => exact ⟨a, i, o, rfl, h, Nat.le_refl _, hf⟩

end Automaton

namespace Assembly

open Automaton

variable {b b' : Assembly} {o : Operator}

/-! ## What an operator does -/

/-- A fragment under an operator behind its operand. -/
def unaryPart : Operator → Automaton → Fragment → Automaton × Fragment
  | .star, a, f => repeated true a f
  | .plus, a, f => repeated false a f
  | _, a, f => skippable a f

/-- Two fragments with an operator between them. -/
def binaryPart : Operator → Automaton → Fragment → Fragment → Automaton × Fragment
  | .concat, a, f, g => concat a f g
  | _, a, f, g => alternate a f g

theorem apply_unary (ho : o.isUnary = true) {f : Fragment} {rest : List Fragment}
    (hs : b.stack = f :: rest) :
    b.apply o = .ok ⟨(unaryPart o b.automaton f).1, (unaryPart o b.automaton f).2 :: rest⟩ := by
  unfold apply
  rw [hs]
  cases o <;> first | exact absurd ho (by decide) | rfl

theorem apply_binary (ho : o.isUnary = false) (hr : o ≠ .range) {f g : Fragment}
    {rest : List Fragment} (hs : b.stack = g :: f :: rest) :
    b.apply o = .ok ⟨(binaryPart o b.automaton f g).1, (binaryPart o b.automaton f g).2 :: rest⟩ := by
  unfold apply
  rw [hs]
  cases o <;> first | exact absurd ho (by decide) | exact absurd rfl hr | rfl

theorem apply_range {lo hi : Char} {rest : List Fragment} (hr : isRange lo hi = true)
    (hs : b.stack = .pending (.symbol hi) :: .pending (.symbol lo) :: rest) :
    b.apply .range = .ok ⟨b.automaton, .pending (.range lo hi) :: rest⟩ := by
  unfold apply
  rw [hs]
  dsimp only
  rw [composeRange, checkRange_eq_ok_iff.2 hr]
  rfl

theorem composeRange_eq_ok {f g h : Fragment} (hc : composeRange f g = .ok h) :
    ∃ lo hi, f = .pending (.symbol lo) ∧ g = .pending (.symbol hi) ∧ isRange lo hi = true ∧
      h = .pending (.range lo hi) := by
  unfold composeRange at hc
  split at hc
  · obtain ⟨u, hu, hc⟩ := bind_eq_ok_iff.1 hc
    cases hc
    exact ⟨_, _, rfl, rfl, checkRange_eq_ok_iff.1 hu, rfl⟩
  · cases hc

/-- All that an operator can do. -/
theorem apply_cases (h : b.apply o = .ok b') :
    (o.isUnary = true ∧ ∃ f rest, b.stack = f :: rest ∧
      b' = ⟨(unaryPart o b.automaton f).1, (unaryPart o b.automaton f).2 :: rest⟩) ∨
    (o.isUnary = false ∧ o ≠ .range ∧ ∃ f g rest, b.stack = g :: f :: rest ∧
      b' = ⟨(binaryPart o b.automaton f g).1, (binaryPart o b.automaton f g).2 :: rest⟩) ∨
    (o = .range ∧ ∃ lo hi rest, isRange lo hi = true ∧
      b.stack = .pending (.symbol hi) :: .pending (.symbol lo) :: rest ∧
      b' = ⟨b.automaton, .pending (.range lo hi) :: rest⟩) := by
  by_cases hr : o = .range
  · subst hr
    obtain ⟨a, stack⟩ := b
    match stack with
    | [] => cases h
    | [f] => cases h
    | g :: f :: rest =>
      obtain ⟨k, hk, h⟩ := bind_eq_ok_iff.1 h
      cases h
      obtain ⟨lo, hi, rfl, rfl, hr, rfl⟩ := composeRange_eq_ok hk
      exact .inr (.inr ⟨rfl, lo, hi, rest, hr, rfl, rfl⟩)
  · cases ho : o.isUnary with
    | true =>
      cases hs : b.stack with
      | nil =>
        unfold apply at h
        rw [hs] at h
        cases o <;> first | exact absurd ho (by decide) | cases h
      | cons f rest =>
        rw [apply_unary ho hs] at h
        cases h
        exact .inl ⟨rfl, f, rest, rfl, rfl⟩
    | false =>
      match hs : b.stack with
      | [] =>
        unfold apply at h
        rw [hs] at h
        cases o <;> first | exact absurd ho (by decide) | cases h
      | [f] =>
        unfold apply at h
        rw [hs] at h
        cases o <;> first | exact absurd ho (by decide) | cases h
      | g :: f :: rest =>
        rw [apply_binary ho hr hs] at h
        cases h
        exact .inr (.inl ⟨rfl, hr, f, g, rest, rfl, rfl⟩)

/-! ## The number of fragments -/

theorem length_take {t : Token} (h : b.take t = .ok b') :
    (b'.stack.length : Int) = b.stack.length + t.weight ∧ b'.stack ≠ [] := by
  cases t with
  | symbol c =>
    cases h
    exact ⟨by simp [push, weight], by simp [push]⟩
  | range lo hi =>
    cases h
    exact ⟨by simp [push, weight], by simp [push]⟩
  | op o =>
    rcases apply_cases h with ⟨ho, f, rest, hs, rfl⟩ | ⟨ho, hr, f, g, rest, hs, rfl⟩ |
      ⟨rfl, lo, hi, rest, -, hs, rfl⟩
    · have hw : (op o).weight = 0 := by
        cases o <;> first | exact absurd ho (by decide) | rfl
      refine ⟨?_, by simp⟩
      rw [hs, hw]
      simp
    · have hw : (op o).weight = -1 := by
        cases o <;> first | exact absurd ho (by decide) | exact absurd rfl hr | rfl
      refine ⟨?_, by simp⟩
      rw [hs, hw]
      simp only [List.length_cons]
      omega
    · refine ⟨?_, by simp⟩
      rw [hs, show (op .range).weight = -1 from rfl]
      simp only [List.length_cons]
      omega
  | leftParen => cases h
  | rightParen => cases h

theorem length_foldlM_take {ts : List Token} (h : ts.foldlM take b = .ok b') :
    (b'.stack.length : Int) = b.stack.length + net ts ∧ (b'.stack = [] → ts = []) := by
  induction ts generalizing b with
  | nil =>
    cases h
    exact ⟨by simp, fun _ => rfl⟩
  | cons t ts ih =>
    rw [List.foldlM_cons] at h
    obtain ⟨c, hc, h⟩ := bind_eq_ok_iff.1 h
    obtain ⟨hlen, hne⟩ := length_take hc
    obtain ⟨hlen', hnil⟩ := ih h
    refine ⟨?_, fun e => ?_⟩
    · rw [net_cons]
      omega
    · cases hnil e
      cases h
      exact absurd e hne

/-- Operators that find their operands can be taken. -/
theorem exists_take {n m : Nat} {ts : List Token} (h : Evaluates n ts m) (hn : b.stack.length = n) :
    ∃ b', ts.foldlM take b = .ok b' ∧ b'.stack.length = m := by
  induction h generalizing b with
  | nil n => exact ⟨b, rfl, hn⟩
  | @symbol n m c ts _ ih => exact ih (b := b.push (.pending (.symbol c))) (by simp [push, hn])
  | @range n m lo hi ts hr _ ih =>
    have hs : ((b.push (.pending (.symbol lo))).push (.pending (.symbol hi))).stack =
      .pending (.symbol hi) :: .pending (.symbol lo) :: b.stack := rfl
    obtain ⟨b', hb', hm⟩ := ih (b := ⟨b.automaton, .pending (.range lo hi) :: b.stack⟩) (by simp [hn])
    refine ⟨b', ?_, hm⟩
    show (((b.push (.pending (.symbol lo))).push (.pending (.symbol hi))).apply .range >>=
      fun c => ts.foldlM take c) = _
    rw [apply_range hr hs]
    exact hb'
  | @unary n m o ts ho _ ih =>
    match hs : b.stack with
    | [] => simp [hs] at hn
    | f :: rest =>
      obtain ⟨b', hb', hm⟩ := ih
        (b := ⟨(unaryPart o b.automaton f).1, (unaryPart o b.automaton f).2 :: rest⟩)
        (by simpa [hs] using hn)
      refine ⟨b', ?_, hm⟩
      rw [List.foldlM_cons]
      show (b.apply o >>= fun c => ts.foldlM take c) = _
      rw [apply_unary ho hs]
      exact hb'
  | @binary n m o ts ho hr _ ih =>
    match hs : b.stack with
    | [] => simp [hs] at hn
    | [f] => simp [hs] at hn
    | g :: f :: rest =>
      obtain ⟨b', hb', hm⟩ := ih
        (b := ⟨(binaryPart o b.automaton f g).1, (binaryPart o b.automaton f g).2 :: rest⟩)
        (by simpa [hs] using hn)
      refine ⟨b', ?_, hm⟩
      rw [List.foldlM_cons]
      show (b.apply o >>= fun c => ts.foldlM take c) = _
      rw [apply_binary ho hr hs]
      exact hb'

/-! ## What the operators add -/

section Adds

variable {a a₁ a₂ : Automaton} {f g : Fragment} {i o i' o' : State}

theorem concat_spec (hf : a.build f = (a₁, i, o)) (hg : a₁.build g = (a₂, i', o')) (ho : o < a₂.size) :
    ∃ a', concat a f g = (a', .built i o') ∧ Adds a₂ a' [(o, i')] ∧ a'.size = a₂.size := by
  refine ⟨a₂.link o i', ?_, (adds_refl a₂).link ho i', size_link ..⟩
  unfold concat
  rw [hf]
  dsimp only
  rw [hg]

theorem alternate_spec (hf : a.build f = (a₁, i, o)) (hg : a₁.build g = (a₂, i', o'))
    (ho : o < a₂.size) (ho' : o' < a₂.size) :
    ∃ a', alternate a f g = (a', .built a₂.size (a₂.size + 1)) ∧
      Adds a₂ a' [(o', a₂.size + 1), (o, a₂.size + 1), (a₂.size, i'), (a₂.size, i)] ∧
      a'.size = a₂.size + 2 := by
  have hx := (new_lt_size a₂).1
  have ho := lt_size_addState (lt_size_addState ho)
  have ho' := lt_size_addState (lt_size_addState ho')
  refine ⟨_, ?_, ((((adds_refl a₂).addState.addState.link hx i).link (lt_size_link hx) i').link
    (lt_size_link (lt_size_link ho)) _).link (lt_size_link (lt_size_link (lt_size_link ho'))) _, ?_⟩
  · unfold alternate
    rw [hf]
    dsimp only
    rw [hg]
  · simp only [size_link, size_addState]

/-- The empty moves of a repetition between a new entry and a new exit. -/
def roundLinks (skip : Bool) (x y i o : State) : List (State × State) :=
  (if skip then [(x, y)] else []) ++ [(o, i), (o, y), (x, i)]

theorem mem_roundLinks {skip : Bool} {x y s t : State} :
    (s, t) ∈ roundLinks skip x y i o ↔
      (s = o ∧ t = i) ∨ (s = o ∧ t = y) ∨ (s = x ∧ t = i) ∨ (skip = true ∧ s = x ∧ t = y) := by
  unfold roundLinks
  cases skip with
  | false => simp
  | true =>
    simp only [List.mem_append, List.mem_cons, Prod.mk.injEq, List.not_mem_nil, or_false, if_true,
      true_and]
    tauto

theorem repeated_spec (skip : Bool) (hf : a.build f = (a₁, i, o)) (ho : o < a₁.size) :
    ∃ a', repeated skip a f = (a', .built a₁.size (a₁.size + 1)) ∧
      Adds a₁ a' (roundLinks skip a₁.size (a₁.size + 1) i o) ∧ a'.size = a₁.size + 2 := by
  have hx := (new_lt_size a₁).1
  have ho := lt_size_addState (lt_size_addState ho)
  have hround := (((adds_refl a₁).addState.addState.link hx i).link (lt_size_link ho)
    (a₁.size + 1)).link (lt_size_link (lt_size_link ho)) i
  cases skip with
  | false =>
    refine ⟨_, ?_, hround, by simp only [size_link, size_addState]⟩
    unfold repeated
    rw [hf]
    rfl
  | true =>
    refine ⟨_, ?_, hround.link (lt_size_link (lt_size_link (lt_size_link hx))) (a₁.size + 1),
      by simp only [size_link, size_addState]⟩
    unfold repeated
    rw [hf]
    rfl

theorem skippable_spec (hf : a.build f = (a₁, i, o)) :
    ∃ a', skippable a f = (a', .built a₁.size o) ∧ Adds a₁ a' [(a₁.size, o), (a₁.size, i)] ∧
      a'.size = a₁.size + 1 := by
  have hx : a₁.size < a₁.addState.size := by
    rw [size_addState]
    exact Nat.lt_succ_self _
  refine ⟨_, ?_, ((adds_refl a₁).addState.link hx i).link (lt_size_link hx) o,
    by simp only [size_link, size_addState]⟩
  unfold skippable
  rw [hf]

end Adds

/-! ## Soundness -/

/-- An automaton under construction that holds all fragments of the stack. -/
structure Sound (b : Assembly) : Prop where
  inert : b.automaton.Inert
  stack : ∀ f ∈ b.stack, b.automaton.Holds f

theorem sound_empty : Sound {} := ⟨inert_empty, by simp⟩

/-- Whether an operation keeps an automaton inert and gives a fragment of it. -/
def Grows (a : Automaton) (r : Automaton × Fragment) : Prop :=
  r.1.Inert ∧ a.size ≤ r.1.size ∧ r.1.Holds r.2

variable {a : Automaton} {f g : Fragment}

theorem grows_concat (h : a.Inert) (hf : a.Holds f) (hg : a.Holds g) : Grows a (concat a f g) := by
  obtain ⟨a₁, i, o, hbf, h₁, hle₁, hi, ho⟩ := h.build hf
  obtain ⟨a₂, i', o', hbg, h₂, hle₂, hi', ho'⟩ := h₁.build (hg.mono hle₁)
  obtain ⟨a', he, ha, hsize⟩ := concat_spec hbf hbg (Nat.lt_of_lt_of_le ho hle₂)
  rw [he]
  refine ⟨h₂.adds ha fun s t hst => ?_, Nat.le_trans (Nat.le_trans hle₁ hle₂) ha.size,
    Nat.lt_of_lt_of_le hi (Nat.le_trans hle₂ ha.size), Nat.lt_of_lt_of_le ho' ha.size⟩
  cases List.mem_singleton.1 hst
  exact Nat.lt_of_lt_of_le hi' ha.size

theorem grows_alternate (h : a.Inert) (hf : a.Holds f) (hg : a.Holds g) :
    Grows a (alternate a f g) := by
  obtain ⟨a₁, i, o, hbf, h₁, hle₁, hi, ho⟩ := h.build hf
  obtain ⟨a₂, i', o', hbg, h₂, hle₂, hi', ho'⟩ := h₁.build (hg.mono hle₁)
  have hi := Nat.lt_of_lt_of_le hi hle₂
  obtain ⟨a', he, ha, hsize⟩ := alternate_spec hbf hbg (Nat.lt_of_lt_of_le ho hle₂) ho'
  have hx : a₂.size < a'.size := by omega
  have hy : a₂.size + 1 < a'.size := by omega
  rw [he]
  refine ⟨h₂.adds ha fun s t hst => ?_, Nat.le_trans (Nat.le_trans hle₁ hle₂) ha.size, hx, hy⟩
  simp only [List.mem_cons, Prod.mk.injEq, List.not_mem_nil, or_false] at hst
  rcases hst with ⟨-, rfl⟩ | ⟨-, rfl⟩ | ⟨-, rfl⟩ | ⟨-, rfl⟩
  · exact hy
  · exact hy
  · exact Nat.lt_of_lt_of_le hi' ha.size
  · exact Nat.lt_of_lt_of_le hi ha.size

theorem grows_repeated (h : a.Inert) (hf : a.Holds f) (skip : Bool) :
    Grows a (repeated skip a f) := by
  obtain ⟨a₁, i, o, hbf, h₁, hle, hi, ho⟩ := h.build hf
  obtain ⟨a', he, ha, hsize⟩ := repeated_spec skip hbf ho
  have hx : a₁.size < a'.size := by omega
  have hy : a₁.size + 1 < a'.size := by omega
  rw [he]
  refine ⟨h₁.adds ha fun s t hst => ?_, Nat.le_trans hle ha.size, hx, hy⟩
  rcases mem_roundLinks.1 hst with ⟨-, rfl⟩ | ⟨-, rfl⟩ | ⟨-, rfl⟩ | ⟨-, -, rfl⟩
  · exact Nat.lt_of_lt_of_le hi ha.size
  · exact hy
  · exact Nat.lt_of_lt_of_le hi ha.size
  · exact hy

theorem grows_skippable (h : a.Inert) (hf : a.Holds f) : Grows a (skippable a f) := by
  obtain ⟨a₁, i, o, hbf, h₁, hle, hi, ho⟩ := h.build hf
  obtain ⟨a', he, ha, hsize⟩ := skippable_spec hbf
  have hx : a₁.size < a'.size := by omega
  have ho := Nat.lt_of_lt_of_le ho ha.size
  rw [he]
  refine ⟨h₁.adds ha fun s t hst => ?_, Nat.le_trans hle ha.size, hx, ho⟩
  simp only [List.mem_cons, Prod.mk.injEq, List.not_mem_nil, or_false] at hst
  rcases hst with ⟨-, rfl⟩ | ⟨-, rfl⟩
  · exact ho
  · exact Nat.lt_of_lt_of_le hi ha.size

theorem grows_unaryPart (h : a.Inert) (hf : a.Holds f) (o : Operator) :
    Grows a (unaryPart o a f) := by
  cases o with
  | star => exact grows_repeated h hf true
  | plus => exact grows_repeated h hf false
  | _ => exact grows_skippable h hf

theorem grows_binaryPart (h : a.Inert) (hf : a.Holds f) (hg : a.Holds g) (o : Operator) :
    Grows a (binaryPart o a f g) := by
  cases o with
  | concat => exact grows_concat h hf hg
  | _ => exact grows_alternate h hf hg

/-- The fragments below stay when the automaton grows. -/
theorem Grows.sound {r : Automaton × Fragment} {rest : List Fragment} (h : Grows a r)
    (hs : ∀ f ∈ rest, a.Holds f) : Sound ⟨r.1, r.2 :: rest⟩ := by
  refine ⟨h.1, fun f hf => ?_⟩
  rcases List.mem_cons.1 hf with rfl | hf
  · exact h.2.2
  · exact (hs f hf).mono h.2.1

theorem Sound.take {t : Token} (h : Sound b) (ht : t.Single) (hb : b.take t = .ok b') :
    Sound b' := by
  cases t with
  | symbol c =>
    cases hb
    have hgrows : Grows b.automaton (b.automaton, .pending (.symbol c)) :=
      ⟨h.inert, Nat.le_refl _, Label.ascends_symbol c⟩
    exact hgrows.sound h.stack
  | range lo hi => exact absurd ht id
  | op o =>
    rcases apply_cases hb with ⟨-, f, rest, hs, rfl⟩ | ⟨-, -, f, g, rest, hs, rfl⟩ |
      ⟨-, lo, hi, rest, hr, hs, rfl⟩
    · have hstack := hs ▸ h.stack
      exact (grows_unaryPart h.inert (hstack f (by simp)) o).sound fun g hg =>
        hstack g (by simp [hg])
    · have hstack := hs ▸ h.stack
      exact (grows_binaryPart h.inert (hstack f (by simp)) (hstack g (by simp)) o).sound
        fun k hk => hstack k (by simp [hk])
    · have hstack := hs ▸ h.stack
      have hgrows : Grows b.automaton (b.automaton, .pending (.range lo hi)) :=
        ⟨h.inert, Nat.le_refl _, Label.ascends_range hr⟩
      exact hgrows.sound fun k hk => hstack k (by simp [hk])
  | leftParen => cases hb
  | rightParen => cases hb

theorem Sound.foldlM_take {ts : List Token} (h : Sound b) (hts : ∀ t ∈ ts, t.Single)
    (hb : ts.foldlM Assembly.take b = .ok b') : Sound b' :=
  foldlM_keeps h (fun t ht _ _ hc hc' => hc.take (hts t ht) hc') hb

/-! ## The end -/

end Assembly

namespace Automaton

/-- The automaton with one accepting state and an initial one. -/
def completed (a : Automaton) (entry exit : State) : Automaton :=
  { a.modifyNode exit (fun n => { n with accepting := true }) with initial := some entry }

variable {a : Automaton} {entry exit : State}

@[simp] theorem size_completed : (a.completed entry exit).size = a.size := by
  simp [completed, modifyNode, size]

@[simp] theorem arrows_completed (s : State) : (a.completed entry exit).arrows s = a.arrows s := by
  unfold arrows completed modifyNode
  simp only [Array.getElem?_modify]
  by_cases h : exit = s
  · subst h
    cases a.nodes[exit]? <;> simp
  · rw [if_neg h]

theorem accepting_completed (h : a.Inert) (hexit : exit < a.size) {s : State} :
    (a.completed entry exit).accepting s = true ↔ s = exit := by
  have hs := h.accepting s
  unfold accepting completed modifyNode at *
  simp only [Array.getElem?_modify]
  by_cases e : exit = s
  · subst e
    obtain ⟨n, hn⟩ : ∃ n, a.nodes[exit]? = some n := ⟨_, Array.getElem?_eq_getElem hexit⟩
    simp [hn]
  · simp [e, hs, Ne.symm e]

theorem wellFormed_completed (h : a.Inert) (hentry : entry < a.size) :
    (a.completed entry exit).WellFormed := by
  constructor
  · intro s r hr
    rw [arrows_completed] at hr
    rw [size_completed]
    exact (h.arrows s r hr).1
  · rintro s ⟨⟩
    rw [size_completed]
    exact hentry

theorem forward_completed (h : a.Inert) : (a.completed entry exit).Forward := by
  intro s r hr
  rw [arrows_completed] at hr
  exact (h.arrows s r hr).2

end Automaton

namespace Assembly

open Automaton

variable {b : Assembly}

theorem finish_nil (h : b.stack = []) :
    b.finish = .ok (b.automaton.addState.completed b.automaton.size b.automaton.size) := by
  unfold finish
  rw [h]
  rfl

theorem finish_singleton {f : Fragment} {a₁ : Automaton} {i o : State} (h : b.stack = [f])
    (hf : b.automaton.build f = (a₁, i, o)) : b.finish = .ok (a₁.completed i o) := by
  unfold finish
  rw [h]
  dsimp only
  rw [hf]
  rfl

/-- What is finished is a completed automaton, and at most one fragment was left. -/
theorem finish_spec (hb : Sound b) {a : Automaton} (h : b.finish = .ok a) :
    b.stack.length ≤ 1 ∧ a.WellFormed ∧ a.Forward ∧ ∃ s, a.initial = some s := by
  match hs : b.stack with
  | [] =>
    rw [finish_nil hs] at h
    cases h
    refine ⟨by simp, wellFormed_completed hb.inert.addState ?_,
      forward_completed hb.inert.addState, _, rfl⟩
    rw [size_addState]
    exact Nat.lt_succ_self _
  | [f] =>
    obtain ⟨a₁, i, o, hf, hi, -, hentry, -⟩ := hb.inert.build (hb.stack f (by simp [hs]))
    rw [finish_singleton hs hf] at h
    cases h
    exact ⟨by simp, wellFormed_completed hi hentry, forward_completed hi, _, rfl⟩
  | f :: g :: rest =>
    unfold finish at h
    rw [hs] at h
    cases h

theorem exists_finish (h : b.stack.length ≤ 1) : ∃ a, b.finish = .ok a := by
  match hs : b.stack with
  | [] => exact ⟨_, finish_nil hs⟩
  | [f] => exact ⟨_, finish_singleton hs rfl⟩
  | f :: g :: rest =>
    rw [hs] at h
    simp at h

end Assembly

end PatternAutomata
