import PatternAutomata.Pattern.Postorder
import PatternAutomata.Proofs.Phrase

/-!
# What reordering keeps, and when it succeeds

Whatever the levels are, a list can be reordered when its parentheses match and its operators have a
level.  Parentheses aside, all that is read is written: operands in their order, and operators later.

    (∃ out, p.reorder [] ts = .ok out) ↔
      Balanced 0 ts ∧ ∀ o, op o ∈ ts → ∃ level, p.level? o = some level    (exists_reorder_iff)
    p.reorder [] ts = .ok out → Rearranges [] ts out                       (rearranges_of_reorder)

When the list alternates, each operator of the result finds its operands (`evaluates_of_reorder`):
behind an operand there is one more of them than there are operators between operands that wait.
-/

namespace PatternAutomata

open Token Pattern

open Waiting hiding op

namespace Token

/-- Whether a token is a parenthesis. -/
def isParen : Token → Bool
  | leftParen | rightParen => true
  | _ => false

/-- A list but for its parentheses. -/
def withoutParens (ts : List Token) : List Token := ts.filter fun t => !t.isParen

@[simp] theorem withoutParens_append (ts us : List Token) :
    withoutParens (ts ++ us) = withoutParens ts ++ withoutParens us := List.filter_append ..

theorem withoutParens_cons {t : Token} (h : t.isParen = false) (ts : List Token) :
    withoutParens (t :: ts) = t :: withoutParens ts := List.filter_cons_of_pos (by simp [h])

theorem withoutParens_paren {t : Token} (h : t.isParen = true) (ts : List Token) :
    withoutParens (t :: ts) = withoutParens ts := List.filter_cons_of_neg (by simp [h])

/-- A token as it is written in postorder: a range as its bounds and the range operator. -/
def composed : Token → List Token
  | range lo hi => [symbol lo, symbol hi, op .range]
  | t => [t]

theorem composed_ne_nil (t : Token) : t.composed ≠ [] := by cases t <;> simp [composed]

theorem single_composed {t : Token} (h : t.Spelled) : ∀ u ∈ t.composed, u.Single := by
  cases t with
  | symbol c =>
    have hc : isSymbol c = true := h
    simpa [composed, Single] using hc
  | range lo hi =>
    have hbounds := isSymbol_of_isRange h
    simpa [composed, Single] using hbounds
  | op o => simp [composed, Single]
  | leftParen => simp [composed, Single]
  | rightParen => simp [composed, Single]

theorem net_composed (t : Token) : net t.composed = t.weight := by
  cases t <;> simp [composed, weight, Operator.arity]

theorem net_flatMap_composed (ts : List Token) : net (ts.flatMap composed) = net ts := by
  induction ts with
  | nil => rfl
  | cons t ts ih => rw [List.flatMap_cons, net_append, net_composed, ih, net_cons]

theorem net_withoutParens (ts : List Token) : net (withoutParens ts) = net ts := by
  induction ts with
  | nil => rfl
  | cons t ts ih => cases t <;> simp_all [withoutParens, isParen, weight]

theorem net_eq_of_perm {ts us : List Token} (h : ts.Perm us) : net ts = net us := by
  induction h with
  | nil => rfl
  | cons t _ ih => rw [net_cons, net_cons, ih]
  | swap t u ts =>
    simp only [net_cons]
    omega
  | trans _ _ ih ih' => rw [ih, ih']

end Token

namespace Waiting

/-- Number of open groups. -/
def groups : List Waiting → Nat
  | [] => 0
  | .group :: stack => groups stack + 1
  | .op _ _ :: stack => groups stack

/-- The operators that wait, in the order in which they are released. -/
def ops : List Waiting → List Token
  | [] => []
  | .group :: stack => ops stack
  | .op o _ :: stack => .op o :: ops stack

@[simp] theorem ops_append (s t : List Waiting) : ops (s ++ t) = ops s ++ ops t := by
  induction s with
  | nil => rfl
  | cons w s ih => cases w <;> simp [ops, ih]

theorem exists_of_mem_ops {stack : List Waiting} {t : Token} (h : t ∈ ops stack) :
    ∃ o, t = Token.op o := by
  induction stack with
  | nil => cases h
  | cons w stack ih =>
    cases w with
    | group => exact ih h
    | op o l =>
      rcases List.mem_cons.1 h with rfl | h
      · exact ⟨o, rfl⟩
      · exact ih h

/-- Releasing takes operators from the top of the stack. -/
theorem release_eq (level : Nat) (stack : List Waiting) :
    groups (release level stack).2 = groups stack ∧
      (release level stack).1 ++ ops (release level stack).2 = ops stack := by
  induction stack with
  | nil => exact ⟨rfl, rfl⟩
  | cons w stack ih =>
    cases w with
    | group => exact ⟨rfl, rfl⟩
    | op o l =>
      unfold release
      split
      · exact ⟨ih.1, congrArg (Token.op o :: ·) ih.2⟩
      · exact ⟨rfl, rfl⟩

theorem release_subset (level : Nat) (stack : List Waiting) : (release level stack).2 ⊆ stack := by
  induction stack with
  | nil => exact List.Subset.refl _
  | cons w stack ih =>
    cases w with
    | group => exact List.Subset.refl _
    | op o l =>
      unfold release
      split
      · exact List.Subset.trans ih (List.subset_cons_self _ _)
      · exact List.Subset.refl _

theorem closeGroup_eq {stack rest : List Waiting} {os : List Token}
    (h : closeGroup stack = .ok (os, rest)) :
    groups stack = groups rest + 1 ∧ os ++ ops rest = ops stack := by
  induction stack generalizing os with
  | nil => cases h
  | cons w stack ih =>
    cases w with
    | group =>
      cases h
      exact ⟨rfl, rfl⟩
    | op o l =>
      obtain ⟨⟨os', rest'⟩, hc, h⟩ := bind_eq_ok_iff.1 h
      cases h
      exact ⟨(ih hc).1, congrArg (Token.op o :: ·) (ih hc).2⟩

theorem closeGroup_subset {stack rest : List Waiting} {os : List Token}
    (h : closeGroup stack = .ok (os, rest)) : rest ⊆ stack := by
  induction stack generalizing os with
  | nil => cases h
  | cons w stack ih =>
    cases w with
    | group =>
      cases h
      exact List.subset_cons_self _ _
    | op o l =>
      obtain ⟨⟨os', rest'⟩, hc, h⟩ := bind_eq_ok_iff.1 h
      cases h
      exact List.Subset.trans (ih hc) (List.subset_cons_self _ _)

theorem exists_closeGroup {depth : Nat} {stack : List Waiting} (hg : groups stack = depth + 1) :
    ∃ os rest, closeGroup stack = .ok (os, rest) := by
  induction stack with
  | nil => cases hg
  | cons w stack ih =>
    cases w with
    | group => exact ⟨[], stack, rfl⟩
    | op o l =>
      obtain ⟨os, rest, hc⟩ := ih hg
      refine ⟨Token.op o :: os, rest, ?_⟩
      rw [closeGroup, hc]
      rfl

theorem releaseAll_eq {stack : List Waiting} {os : List Token} (h : releaseAll stack = .ok os) :
    groups stack = 0 ∧ os = ops stack := by
  induction stack generalizing os with
  | nil =>
    cases h
    exact ⟨rfl, rfl⟩
  | cons w stack ih =>
    cases w with
    | group => cases h
    | op o l =>
      obtain ⟨os', hr, h⟩ := bind_eq_ok_iff.1 h
      cases h
      exact ⟨(ih hr).1, congrArg (Token.op o :: ·) (ih hr).2⟩

theorem exists_releaseAll {stack : List Waiting} (hg : groups stack = 0) :
    ∃ os, releaseAll stack = .ok os := by
  induction stack with
  | nil => exact ⟨[], rfl⟩
  | cons w stack ih =>
    cases w with
    | group => cases hg
    | op o l =>
      obtain ⟨os, hr⟩ := ih hg
      refine ⟨Token.op o :: os, ?_⟩
      rw [releaseAll, hr]
      rfl

end Waiting

/-! ## What is kept -/

/-- Whether a list is written for tokens and operators that wait: its operands are those of the tokens,
in their order, and the operators of both are written between them. -/
def Rearranges (waiting ts out : List Token) : Prop :=
  ∃ us : List Token, out = us.flatMap composed ∧ us.filter isOperand = ts.filter isOperand ∧
    us.Perm (waiting ++ withoutParens ts)

namespace Rearranges

variable {waiting os ts out : List Token} {stack rest : List Waiting} {t : Token} {o : Operator}

theorem operand (ht : t.isOperand = true) (h : Rearranges waiting ts out) :
    Rearranges waiting (t :: ts) (t.composed ++ out) := by
  obtain ⟨us, rfl, hoperands, hperm⟩ := h
  have hparen : t.isParen = false := by cases t <;> first | rfl | cases ht
  refine ⟨t :: us, rfl, ?_, ?_⟩
  · rw [List.filter_cons_of_pos ht, List.filter_cons_of_pos ht, hoperands]
  · rw [withoutParens_cons hparen]
    exact (hperm.cons t).trans List.perm_middle.symm

theorem paren (ht : t.isParen = true) (h : Rearranges waiting ts out) :
    Rearranges waiting (t :: ts) out := by
  obtain ⟨us, rfl, hoperands, hperm⟩ := h
  have hoperand : ¬ t.isOperand = true := by cases t <;> simp_all [isParen, isOperand]
  refine ⟨us, rfl, ?_, ?_⟩
  · rw [List.filter_cons_of_neg hoperand, hoperands]
  · rwa [withoutParens_paren ht]

/-- An operator that is read waits. -/
theorem operator (h : Rearranges (op o :: waiting) ts out) : Rearranges waiting (op o :: ts) out := by
  obtain ⟨us, rfl, hoperands, hperm⟩ := h
  exact ⟨us, rfl, hoperands, hperm.trans List.perm_middle.symm⟩

/-- Operators that no longer wait are written. -/
theorem released (hops : os ++ ops rest = ops stack) (h : Rearranges (ops rest) ts out) :
    Rearranges (ops stack) ts (os ++ out) := by
  obtain ⟨us, rfl, hoperands, hperm⟩ := h
  have hos : ∀ t ∈ os, ∃ o, t = op o := fun t ht =>
    exists_of_mem_ops (hops ▸ List.mem_append_left _ ht)
  have hcomposed : os.flatMap composed = os.flatMap fun t => [t] :=
    List.flatMap_congr fun t ht => by
      obtain ⟨o, rfl⟩ := hos t ht
      rfl
  have hnone : os.filter isOperand = [] := List.filter_eq_nil_iff.2 fun t ht => by
    obtain ⟨o, rfl⟩ := hos t ht
    exact Bool.false_ne_true
  refine ⟨os ++ us, ?_, ?_, ?_⟩
  · rw [List.flatMap_append, hcomposed, List.flatMap_singleton']
  · rw [List.filter_append, hnone, List.nil_append, hoperands]
  · rw [← hops, List.append_assoc]
    exact hperm.append_left os

theorem nil (stack : List Waiting) : Rearranges (ops stack) [] (ops stack) := by
  have hnone : Rearranges (ops []) [] [] := ⟨[], rfl, rfl, .nil⟩
  have hall := hnone.released (List.append_nil (ops stack))
  rwa [List.append_nil] at hall

theorem single (hts : ∀ t ∈ ts, t.Spelled) (h : Rearranges (ops stack) ts out) :
    ∀ t ∈ out, t.Single := by
  obtain ⟨us, rfl, -, hperm⟩ := h
  intro t ht
  obtain ⟨u, hu, ht⟩ := List.mem_flatMap.1 ht
  rcases List.mem_append.1 (hperm.mem_iff.1 hu) with hu | hu
  · obtain ⟨o, rfl⟩ := exists_of_mem_ops hu
    rw [List.mem_singleton.1 ht]
    trivial
  · exact single_composed (hts u (List.mem_filter.1 hu).1) t ht

end Rearranges

namespace Precedence

variable {p : Precedence} {stack : List Waiting} {ts out : List Token}

theorem rearranges_of_reorder (h : p.reorder stack ts = .ok out) :
    Rearranges (ops stack) ts out := by
  fun_induction p.reorder stack ts generalizing out with
  | case1 stack =>
    rw [(releaseAll_eq h).2]
    exact .nil stack
  | case2 stack c rest ih =>
    obtain ⟨os, hos, h⟩ := bind_eq_ok_iff.1 h
    cases h
    exact (ih hos).operand (t := symbol c) rfl
  | case3 stack lo hi rest ih =>
    obtain ⟨os, hos, h⟩ := bind_eq_ok_iff.1 h
    cases h
    exact (ih hos).operand (t := range lo hi) rfl
  | case4 stack rest ih => exact (ih h).paren rfl
  | case5 stack rest ih =>
    obtain ⟨⟨os, stack'⟩, hc, h⟩ := bind_eq_ok_iff.1 h
    obtain ⟨os', hos, h⟩ := bind_eq_ok_iff.1 h
    cases h
    exact ((ih stack' hos).paren rfl).released (closeGroup_eq hc).2
  | case6 => cases h
  | case7 stack o rest level hl os stack' hrel ih =>
    obtain ⟨os', hos, h⟩ := bind_eq_ok_iff.1 h
    cases h
    have hops := (release_eq level stack).2
    rw [hrel] at hops
    exact (ih hos).operator.released hops

theorem net_reorder (h : p.reorder stack ts = .ok out) : net out = net ts + net (ops stack) := by
  obtain ⟨us, rfl, -, hperm⟩ := rearranges_of_reorder h
  rw [net_flatMap_composed, net_eq_of_perm hperm, net_append, net_withoutParens, Int.add_comm]

/-- Whoever reads an operand or an operator writes one. -/
theorem eq_nil_of_reorder (h : p.reorder stack ts = .ok []) :
    (∀ t ∈ ts, t = leftParen ∨ t = rightParen) ∧ ops stack = [] := by
  obtain ⟨us, hus, -, hperm⟩ := rearranges_of_reorder h
  have hnil : us = [] := List.eq_nil_iff_forall_not_mem.2 fun t ht =>
    t.composed_ne_nil (List.flatMap_eq_nil_iff.1 hus.symm t ht)
  rw [hnil] at hperm
  obtain ⟨hops, hnone⟩ := List.append_eq_nil_iff.1 hperm.nil_eq.symm
  refine ⟨fun t ht => ?_, hops⟩
  have hparen := List.filter_eq_nil_iff.1 hnone t ht
  cases t <;> first | exact .inl rfl | exact .inr rfl | exact absurd rfl hparen

theorem single_reorder (hts : ∀ t ∈ ts, t.Proper) (h : p.reorder stack ts = .ok out) :
    ∀ t ∈ out, t.Single :=
  (rearranges_of_reorder h).single fun t ht => (hts t ht).spelled

theorem postorder_eq_ok_iff {text y : List Char} :
    p.postorder text = .ok y ↔
      ∃ ts out, scan text = .ok ts ∧ p.reorder [] ts = .ok out ∧ render out = y := by
  unfold postorder
  constructor
  · intro h
    obtain ⟨ts, hts, h⟩ := bind_eq_ok_iff.1 h
    obtain ⟨out, hout, h⟩ := bind_eq_ok_iff.1 h
    exact ⟨ts, out, hts, hout, Except.ok.inj h⟩
  · rintro ⟨ts, out, hts, hout, rfl⟩
    exact bind_eq_ok_iff.2 ⟨ts, hts, bind_eq_ok_iff.2 ⟨out, hout, rfl⟩⟩

theorem postorder_render (h : ∀ t ∈ ts, t.Proper) {y : List Char} :
    p.postorder (render ts) = .ok y ↔ ∃ out, p.reorder [] ts = .ok out ∧ render out = y := by
  simp [postorder_eq_ok_iff, scan_render h]

/-! ## When reordering succeeds -/

/-- Reordering fails where a parenthesis has no partner or an operator has no level, and nowhere else. -/
theorem exists_reorder_iff :
    (∃ out, p.reorder stack ts = .ok out) ↔
      Balanced (groups stack) ts ∧ ∀ o, op o ∈ ts → ∃ level, p.level? o = some level := by
  induction ts generalizing stack with
  | nil =>
    constructor
    · rintro ⟨out, h⟩
      exact ⟨(releaseAll_eq h).1, fun o ho => by cases ho⟩
    · rintro ⟨h, -⟩
      exact exists_releaseAll h
  | cons t ts ih =>
    cases t with
    | symbol c =>
      rw [reorder, exists_bind_ok_iff, ih, balanced_symbol]
      simp
    | range lo hi =>
      rw [reorder, exists_bind_ok_iff, ih, balanced_range]
      simp
    | leftParen =>
      rw [reorder, ih, balanced_leftParen]
      simp [groups]
    | rightParen =>
      rw [reorder]
      cases hg : groups stack with
      | zero =>
        constructor
        · rintro ⟨out, h⟩
          obtain ⟨⟨os, rest⟩, hc, -⟩ := bind_eq_ok_iff.1 h
          rw [(closeGroup_eq hc).1] at hg
          cases hg
        · rintro ⟨h, -⟩
          exact absurd h id
      | succ depth =>
        obtain ⟨os, rest, hc⟩ := exists_closeGroup hg
        have hdepth : groups rest = depth := by
          have := (closeGroup_eq hc).1
          omega
        rw [hc, balanced_rightParen, ← hdepth]
        show (∃ out, (p.reorder rest ts >>= fun out => .ok (os ++ out)) = .ok out) ↔ _
        rw [exists_bind_ok_iff, ih]
        simp
    | op o =>
      rw [reorder, balanced_op]
      cases hl : p.level? o with
      | none =>
        constructor
        · rintro ⟨out, ⟨⟩⟩
        · rintro ⟨-, hlevels⟩
          obtain ⟨level, hsome⟩ := hlevels o List.mem_cons_self
          rw [hl] at hsome
          cases hsome
      | some level =>
        have hgroups : groups (.op o level :: (release level stack).2) = groups stack :=
          (release_eq level stack).1
        rw [exists_bind_ok_iff, ih, hgroups]
        simp [hl]

theorem balanced_of_reorder (h : p.reorder stack ts = .ok out) : Balanced (groups stack) ts :=
  (exists_reorder_iff.1 ⟨out, h⟩).1

end Precedence

/-! ## Operands of operators -/

/-- Whether operators find their operands, starting with `n` of them and ending with `m`.  Two symbols
with the range operator behind them are one operand. -/
inductive Evaluates : Nat → List Token → Nat → Prop where
  | nil (n : Nat) : Evaluates n [] n
  | symbol {n m : Nat} {c : Char} {ts : List Token} :
    Evaluates (n + 1) ts m → Evaluates n (symbol c :: ts) m
  | range {n m : Nat} {lo hi : Char} {ts : List Token} : isRange lo hi = true →
    Evaluates (n + 1) ts m → Evaluates n (symbol lo :: symbol hi :: op .range :: ts) m
  | unary {n m : Nat} {o : Operator} {ts : List Token} : o.isUnary = true →
    Evaluates (n + 1) ts m → Evaluates (n + 1) (op o :: ts) m
  | binary {n m : Nat} {o : Operator} {ts : List Token} : o.isUnary = false → o ≠ .range →
    Evaluates (n + 1) ts m → Evaluates (n + 2) (op o :: ts) m

theorem Evaluates.append {n m k : Nat} {ts us : List Token} (h : Evaluates n ts m)
    (h' : Evaluates m us k) : Evaluates n (ts ++ us) k := by
  induction h with
  | nil => exact h'
  | symbol _ ih => exact .symbol (ih h')
  | range hr _ ih => exact .range hr (ih h')
  | unary ho _ ih => exact .unary ho (ih h')
  | binary ho hr _ ih => exact .binary ho hr (ih h')

namespace Waiting

/-- Number of waiting operators between operands. -/
def binaries : List Waiting → Nat
  | [] => 0
  | .group :: stack => binaries stack
  | .op o _ :: stack => binaries stack + if o.isUnary then 0 else 1

/-- Whether no range operator waits. -/
def NoRange (stack : List Waiting) : Prop := ∀ level, Waiting.op .range level ∉ stack

theorem NoRange.mono {s t : List Waiting} (h : NoRange t) (hst : s ⊆ t) : NoRange s :=
  fun level hm => h level (hst hm)

theorem NoRange.group {stack : List Waiting} (h : NoRange stack) : NoRange (.group :: stack) :=
  fun level hm => by
    rcases List.mem_cons.1 hm with e | hm
    · cases e
    · exact h level hm

theorem NoRange.op {stack : List Waiting} (h : NoRange stack) {o : Operator} (ho : o ≠ .range)
    (level : Nat) : NoRange (.op o level :: stack) := fun l hm => by
  rcases List.mem_cons.1 hm with e | hm
  · cases e
    exact ho rfl
  · exact h l hm

/-- A waiting operator on top of an operand, when all others between operands have theirs. -/
theorem evaluates_cons {o : Operator} {level n m : Nat} {stack : List Waiting} {ts : List Token}
    (h : NoRange (.op o level :: stack)) (ht : Evaluates (binaries stack + 1) ts m)
    (hn : n = binaries (.op o level :: stack) + 1) : Evaluates n (Token.op o :: ts) m := by
  subst hn
  have hr : o ≠ .range := by
    rintro rfl
    exact h level List.mem_cons_self
  cases ho : o.isUnary with
  | true =>
    simp only [binaries, ho, if_true]
    exact .unary ho ht
  | false =>
    simp only [binaries, ho, Bool.false_eq_true, if_false]
    exact .binary ho hr ht

/-- Behind an operand, what is released finds its operands. -/
theorem evaluates_release (level : Nat) {stack : List Waiting} (h : NoRange stack) :
    Evaluates (binaries stack + 1) (release level stack).1
      (binaries (release level stack).2 + 1) := by
  induction stack with
  | nil => exact .nil _
  | cons w stack ih =>
    cases w with
    | group => exact .nil _
    | op o l =>
      unfold release
      split
      · exact evaluates_cons h (ih (h.mono (List.subset_cons_self _ _))) rfl
      · exact .nil _

theorem evaluates_closeGroup {stack rest : List Waiting} {os : List Token} (h : NoRange stack)
    (hc : closeGroup stack = .ok (os, rest)) :
    Evaluates (binaries stack + 1) os (binaries rest + 1) := by
  induction stack generalizing os with
  | nil => cases hc
  | cons w stack ih =>
    cases w with
    | group =>
      cases hc
      exact .nil _
    | op o l =>
      obtain ⟨⟨os', rest'⟩, hc', hc⟩ := bind_eq_ok_iff.1 hc
      cases hc
      exact evaluates_cons h (ih (h.mono (List.subset_cons_self _ _)) hc') rfl

theorem evaluates_releaseAll {stack : List Waiting} {os : List Token} (h : NoRange stack)
    (hall : releaseAll stack = .ok os) : Evaluates (binaries stack + 1) os 1 := by
  induction stack generalizing os with
  | nil =>
    cases hall
    exact .nil _
  | cons w stack ih =>
    cases w with
    | group => cases hall
    | op o l =>
      obtain ⟨os', hall', hall⟩ := bind_eq_ok_iff.1 hall
      cases hall
      exact evaluates_cons h (ih (h.mono (List.subset_cons_self _ _)) hall') rfl

end Waiting

namespace Precedence

variable {p : Precedence} {stack : List Waiting} {ts out : List Token}

/-- The result for an alternating list: all operators find their operands. -/
theorem evaluates_of_reorder {after : Bool} (hts : ∀ t ∈ ts, t.Proper) (hs : NoRange stack)
    (ha : Alternates after ts) (h : p.reorder stack ts = .ok out) :
    Evaluates (binaries stack + if after then 1 else 0) out 1 := by
  fun_induction p.reorder stack ts generalizing after out with
  | case1 stack =>
    cases ha
    exact evaluates_releaseAll hs h
  | case2 stack c rest ih =>
    obtain ⟨os, hos, h⟩ := bind_eq_ok_iff.1 h
    cases h
    cases ha.1.1 rfl
    exact .symbol (ih (List.forall_mem_cons.1 hts).2 hs ha.2 hos)
  | case3 stack lo hi rest ih =>
    obtain ⟨os, hos, h⟩ := bind_eq_ok_iff.1 h
    cases h
    cases ha.1.1 rfl
    obtain ⟨hrange, hts⟩ := List.forall_mem_cons.1 hts
    exact .range hrange (ih hts hs ha.2 hos)
  | case4 stack rest ih =>
    cases ha.1.1 rfl
    exact ih (List.forall_mem_cons.1 hts).2 hs.group ha.2 h
  | case5 stack rest ih =>
    obtain ⟨⟨os, stack'⟩, hc, h⟩ := bind_eq_ok_iff.1 h
    obtain ⟨os', hos, h⟩ := bind_eq_ok_iff.1 h
    cases h
    have hafter : after = true := by simpa [begins] using ha.1
    subst hafter
    have hs' : NoRange stack' := hs.mono (closeGroup_subset hc)
    exact (evaluates_closeGroup hs hc).append (ih stack' (List.forall_mem_cons.1 hts).2 hs' ha.2 hos)
  | case6 => cases h
  | case7 stack o rest level hl os stack' hrel ih =>
    obtain ⟨os', hos, h⟩ := bind_eq_ok_iff.1 h
    cases h
    have hafter : after = true := by simpa using ha.1
    subst hafter
    obtain ⟨ho, hts⟩ := List.forall_mem_cons.1 hts
    have hreleased := evaluates_release level hs
    have hs' := hs.mono (release_subset level stack)
    rw [hrel] at hreleased hs'
    refine hreleased.append ?_
    have hrest := ih hts (hs'.op ho level) ha.2 hos
    rw [ends_op] at hrest
    cases hu : o.isUnary <;> simpa [binaries, hu] using hrest

/-- Whether all operators that a pattern can hold have a level. -/
def Total (p : Precedence) : Prop := ∀ o, o ≠ .range → ∃ level, p.level? o = some level

/-- An alternating balanced list is reordered, and all operators find their operands. -/
theorem exists_reorder (hp : p.Total) {after : Bool} (hts : ∀ t ∈ ts, t.Proper) (hs : NoRange stack)
    (ha : Alternates after ts) (hb : Balanced (groups stack) ts) :
    ∃ out, p.reorder stack ts = .ok out ∧
      Evaluates (binaries stack + if after then 1 else 0) out 1 := by
  obtain ⟨out, h⟩ := exists_reorder_iff.2 ⟨hb, fun o ho => hp o (hts _ ho)⟩
  exact ⟨out, h, evaluates_of_reorder hts hs ha h⟩

end Precedence

end PatternAutomata
