import PatternAutomata.Proofs.Binding
import PatternAutomata.Proofs.Compiler
import PatternAutomata.Proofs.Evaluation

/-!
# Postorder texts listed in order

A postorder text is listed in order when it is read as an expression and each operator is written
between its operands or behind its operand again.  Operators between operands come back to their
places, whatever the levels are.  A postfix operator comes back to its place when it has not waited for
an operator behind it: this one would be written before it, and be part of what it applies to.

    the listing of the postorder is the list without parentheses ↔ p.InTurn ts
                                                    (exists_inorder_eq_iff, listing_eq_iff)

Where an operator is overtaken it is missed at once: operands and postfix operators stand in one order
in the listing and in the postorder (`spine_postorder`), and in the postorder the operator that
overtakes comes first, or an operand does (`spine_ne_of_overtakes`).
-/

namespace PatternAutomata

open Token Pattern

open Waiting hiding op

/-- An expression with each operator where it is written, without parentheses. -/
def Expr.inorder : Expr → List Token
  | symbol c => [.symbol c]
  | range lo hi => [.range lo hi]
  | concat e f => e.inorder ++ .op .concat :: f.inorder
  | alternation e f => e.inorder ++ .op .alternation :: f.inorder
  | star e => e.inorder ++ [.op .star]
  | plus e => e.inorder ++ [.op .plus]
  | optional e => e.inorder ++ [.op .optional]

/-- How a postorder text is listed in order.  No text is listed as no tokens. -/
inductive Listing : List Char → List Token → Prop where
  | nil : Listing [] []
  | expr {t : List Char} {e : Expr} : Postorder t e → Listing t e.inorder

namespace Token

/-- The operands of a token, with the bounds of a range apart, and its postfix operator. -/
def core : Token → List Token
  | symbol c => [symbol c]
  | range lo hi => [symbol lo, symbol hi]
  | op o => if o.isUnary then [op o] else []
  | leftParen | rightParen => []

/-- The operands and the postfix operators of a list. -/
def spine (ts : List Token) : List Token := ts.flatMap core

@[simp] theorem spine_nil : spine [] = [] := rfl

@[simp] theorem spine_cons (t : Token) (ts : List Token) : spine (t :: ts) = t.core ++ spine ts := rfl

@[simp] theorem spine_append (ts us : List Token) : spine (ts ++ us) = spine ts ++ spine us :=
  List.flatMap_append

theorem spine_withoutParens (ts : List Token) : spine (withoutParens ts) = spine ts := by
  induction ts with
  | nil => rfl
  | cons t ts ih => cases t <;> simp_all [withoutParens, isParen, core]

end Token

theorem Expr.inorder_unary {o : Operator} (ho : o.isUnary = true) (e : Expr) :
    (unary o e).inorder = e.inorder ++ [op o] := by
  cases o <;> first | exact absurd ho (by decide) | rfl

theorem Expr.inorder_binary {o : Operator} (ho : o.isUnary = false) (hr : o ≠ .range) (e f : Expr) :
    (binary o e f).inorder = e.inorder ++ op o :: f.inorder := by
  cases o <;> first | exact absurd ho (by decide) | exact absurd rfl hr | rfl

/-- Operators between operands apart, the two orders of an expression agree. -/
theorem Expr.spine_postorder (e : Expr) : spine e.postorder = spine e.inorder := by
  induction e with
  | symbol c => rfl
  | range lo hi => rfl
  | concat e f ih ih' => simp [postorder, inorder, ih, ih', core]
  | alternation e f ih ih' => simp [postorder, inorder, ih, ih', core]
  | star e ih => simp [postorder, inorder, ih]
  | plus e ih => simp [postorder, inorder, ih]
  | optional e ih => simp [postorder, inorder, ih]

namespace Precedence

variable {p : Precedence} {stack : List Waiting} {o o' : Operator} {l l' n : Nat} {t : Token}
  {ts out : List Token} {e : Expr}

/-- What is put together is listed as it was written. -/
theorem Binds.inorder_eq (h : Binds p n ts e) : e.inorder = withoutParens ts := by
  induction h with
  | symbol _ => rfl
  | range _ => rfl
  | group _ ih => simpa [withoutParens, isParen] using ih
  | unary ho _ _ _ ih =>
    rw [Expr.inorder_unary ho, ih, withoutParens_append]
    rfl
  | binary ho hr _ _ _ _ ih ih' =>
    rw [Expr.inorder_binary ho hr, ih, ih', withoutParens_append]
    rfl

/-! ## Operators that are overtaken -/

theorem reorder_op_eq_ok (h : p.reorder stack (op o :: ts) = .ok out) :
    ∃ l out', p.level? o = some l ∧
      p.reorder (.op o l :: (release l stack).2) ts = .ok out' ∧ out = (release l stack).1 ++ out' := by
  rw [reorder] at h
  split at h
  · cases h
  · next l hl =>
    obtain ⟨out', hout, h⟩ := bind_eq_ok_iff.1 h
    cases h
    exact ⟨l, out', hl, hout, rfl⟩

/-- Where an operand is expected, an operand is written next. -/
theorem exists_spine_eq_symbol (ha : Alternates false ts) (h : p.reorder stack ts = .ok out) :
    ∃ c us, spine out = symbol c :: us := by
  induction ts generalizing stack with
  | nil => cases ha
  | cons t ts ih =>
    cases t with
    | symbol c =>
      rw [reorder] at h
      obtain ⟨out', -, h⟩ := bind_eq_ok_iff.1 h
      cases h
      exact ⟨c, spine out', rfl⟩
    | range lo hi =>
      rw [reorder] at h
      obtain ⟨out', -, h⟩ := bind_eq_ok_iff.1 h
      cases h
      exact ⟨lo, symbol hi :: spine out', rfl⟩
    | leftParen =>
      rw [reorder] at h
      exact ih ha.2 h
    | rightParen => exact absurd (ha.1.2 rfl) Bool.false_ne_true
    | op o => exact absurd (ha.1.2 rfl) Bool.false_ne_true

/-- A waiting operator that the next token does not overtake is written at once. -/
theorem reorder_waiting (ho : o.isUnary = true) (hl : p.level? o = some l) (ha : Alternates true ts)
    (hnext : ∀ t ∈ ts.head?, ¬ p.Overtakes (op o) t) (h : p.reorder (.op o l :: stack) ts = .ok out) :
    ∃ out', p.reorder stack ts = .ok out' ∧ out = op o :: out' := by
  cases ts with
  | nil =>
    obtain ⟨os, hos, h⟩ := bind_eq_ok_iff.1 h
    cases h
    exact ⟨os, hos, rfl⟩
  | cons t ts =>
    have hbegins : t.begins ≠ true := fun hb => absurd (ha.1.1 hb) (by decide)
    cases t with
    | symbol c => exact absurd rfl hbegins
    | range lo hi => exact absurd rfl hbegins
    | leftParen => exact absurd rfl hbegins
    | rightParen =>
      rw [reorder] at h
      obtain ⟨⟨os, rest⟩, hc, h⟩ := bind_eq_ok_iff.1 h
      obtain ⟨out', hout, h⟩ := bind_eq_ok_iff.1 h
      obtain ⟨⟨os', rest'⟩, hc', hc⟩ := bind_eq_ok_iff.1 hc
      cases hc
      cases h
      refine ⟨os' ++ out', ?_, rfl⟩
      rw [reorder, hc']
      show (p.reorder rest ts >>= fun out => .ok (os' ++ out)) = _
      rw [hout]
      rfl
    | op o' =>
      obtain ⟨l', out', hl', hout, rfl⟩ := reorder_op_eq_ok h
      have hle : l ≤ l' := by
        by_contra hlt
        exact hnext (op o') rfl ⟨o, o', l, l', rfl, ho, rfl, hl, hl', Nat.lt_of_not_le hlt⟩
      rw [release, if_pos hle] at hout ⊢
      refine ⟨(release l' stack).1 ++ out', ?_, rfl⟩
      rw [reorder, hl']
      show (p.reorder (.op o' l' :: (release l' stack).2) ts >>= fun out => _) = _
      rw [hout]
      rfl

/-- An operator that overtakes waits on top of the one that it overtakes. -/
theorem reorder_overtaken (hl : p.level? o = some l) (h : p.reorder (.op o l :: stack) (t :: ts) = .ok out)
    (hover : p.Overtakes (op o) t) :
    ∃ o' l', t = op o' ∧ p.level? o' = some l' ∧ l' < l ∧
      p.reorder (.op o' l' :: .op o l :: stack) ts = .ok out := by
  obtain ⟨_, o', l₀, l', ⟨⟩, -, rfl, hl₀, hl', hlt⟩ := hover
  cases hl₀.symm.trans hl
  obtain ⟨l₁, out', hl₁, hout, rfl⟩ := reorder_op_eq_ok h
  cases hl₁.symm.trans hl'
  rw [release, if_neg (Nat.not_le_of_lt hlt)] at hout ⊢
  exact ⟨o', l', rfl, hl', hlt, hout⟩

theorem spine_op_append_ne (ho : o.isUnary = true) (hl : p.level? o = some l)
    (hl' : p.level? o' = some l') (hlt : l < l') (us : List Token) :
    spine (op o :: out) ≠ op o' :: us := by
  intro hspine
  simp only [spine_cons, core, ho, if_true, List.singleton_append, List.cons.injEq,
    Token.op.injEq] at hspine
  cases hspine.1
  cases hl.symm.trans hl'
  exact Nat.lt_irrefl _ hlt

/-- While a postfix operator waits on top, none of a higher level is written first. -/
theorem spine_ne_of_lt (ho : o.isUnary = true) (hl : p.level? o = some l) (ha : Alternates true ts)
    (h : p.reorder (.op o l :: stack) ts = .ok out) (hl' : p.level? o' = some l') (hlt : l < l')
    (us : List Token) : spine out ≠ op o' :: us := by
  induction ts generalizing o l stack with
  | nil =>
    obtain ⟨out', -, rfl⟩ := reorder_waiting ho hl ha (by simp) h
    exact spine_op_append_ne ho hl hl' hlt us
  | cons t ts ih =>
    by_cases hover : p.Overtakes (op o) t
    · obtain ⟨o₁, l₁, rfl, hl₁, hlt₁, h⟩ := reorder_overtaken hl h hover
      have hrest : Alternates o₁.isUnary ts := ha.2
      cases ho₁ : o₁.isUnary with
      | true =>
        rw [ho₁] at hrest
        exact ih ho₁ hl₁ hrest h (Nat.lt_trans hlt₁ hlt)
      | false =>
        rw [ho₁] at hrest
        obtain ⟨c, vs, hspine⟩ := exists_spine_eq_symbol hrest h
        rw [hspine]
        rintro ⟨⟩
    · obtain ⟨out', -, rfl⟩ := reorder_waiting ho hl ha (by simpa using hover) h
      exact spine_op_append_ne ho hl hl' hlt us

/-- A postfix operator that is overtaken is not written first. -/
theorem spine_ne_of_overtakes (hl : p.level? o = some l) (ha : Alternates true (t :: ts))
    (h : p.reorder (.op o l :: stack) (t :: ts) = .ok out) (hover : p.Overtakes (op o) t)
    (us : List Token) : spine out ≠ op o :: us := by
  obtain ⟨o', l', rfl, hl', hlt, h⟩ := reorder_overtaken hl h hover
  have hrest : Alternates o'.isUnary ts := ha.2
  cases ho' : o'.isUnary with
  | true =>
    rw [ho'] at hrest
    exact spine_ne_of_lt ho' hl' hrest h hl hlt us
  | false =>
    rw [ho'] at hrest
    obtain ⟨c, vs, hspine⟩ := exists_spine_eq_symbol hrest h
    rw [hspine]
    rintro ⟨⟩

theorem InTurn.cons (h : p.InTurn ts) (ht : ∀ u ∈ ts.head?, ¬ p.Overtakes t u) : p.InTurn (t :: ts) :=
  List.isChain_cons.2 ⟨ht, h⟩

theorem InTurn.cons_of_core (h : p.InTurn ts) (ht : ∀ o, t = op o → o.isUnary = false) :
    p.InTurn (t :: ts) := by
  refine h.cons fun u _ hover => ?_
  obtain ⟨o, _, _, _, rfl, ho, -⟩ := hover
  rw [ht o rfl] at ho
  cases ho

theorem inTurn_of_forall (h : ∀ t ∈ ts, ∀ o, t = op o → o.isUnary = false) : p.InTurn ts := by
  induction ts with
  | nil => exact .nil
  | cons t ts ih =>
    exact (ih fun u hu => h u (List.mem_cons_of_mem t hu)).cons_of_core (h t List.mem_cons_self)

/-- When operands and postfix operators keep their order, none of the operators is overtaken. -/
theorem inTurn_of_spine {after : Bool} (ha : Alternates after ts) (hs : spine (ops stack) = [])
    (h : p.reorder stack ts = .ok out) (hspine : spine out = spine ts) : p.InTurn ts := by
  induction ts generalizing after stack out with
  | nil => exact .nil
  | cons t ts ih =>
    cases t with
    | symbol c =>
      obtain ⟨out', hout, h⟩ := bind_eq_ok_iff.1 h
      cases h
      exact (ih ha.2 hs hout (List.cons.inj hspine).2).cons_of_core (by simp)
    | range lo hi =>
      obtain ⟨out', hout, h⟩ := bind_eq_ok_iff.1 h
      cases h
      refine (ih ha.2 hs hout ?_).cons_of_core (by simp)
      simpa [core, Operator.isUnary, Operator.arity] using hspine
    | leftParen =>
      rw [reorder] at h
      have hs' : spine (ops (.group :: stack)) = [] := hs
      exact (ih ha.2 hs' h hspine).cons_of_core (by simp)
    | rightParen =>
      obtain ⟨⟨os, rest⟩, hc, h⟩ := bind_eq_ok_iff.1 h
      obtain ⟨out', hout, h⟩ := bind_eq_ok_iff.1 h
      cases h
      rw [← (closeGroup_eq hc).2, spine_append, List.append_eq_nil_iff] at hs
      rw [spine_append, hs.1] at hspine
      exact (ih ha.2 hs.2 hout hspine).cons_of_core (by simp)
    | op o =>
      obtain ⟨l, out', hl, hout, rfl⟩ := reorder_op_eq_ok h
      rw [← (release_eq l stack).2, spine_append, List.append_eq_nil_iff] at hs
      rw [spine_append, hs.1, List.nil_append] at hspine
      have hrest : Alternates o.isUnary ts := ha.2
      cases ho : o.isUnary with
      | true =>
        rw [ho] at hrest
        have hop : spine (op o :: ts) = op o :: spine ts := by simp [core, ho]
        rw [hop] at hspine
        have hnext : ∀ t ∈ ts.head?, ¬ p.Overtakes (op o) t := by
          intro t ht hover
          obtain ⟨us, rfl⟩ : ∃ us, ts = t :: us := List.head?_eq_some_iff.1 ht
          exact spine_ne_of_overtakes hl hrest hout hover _ hspine
        obtain ⟨out'', hout', rfl⟩ := reorder_waiting ho hl hrest hnext hout
        rw [spine_cons, core, if_pos ho] at hspine
        exact (ih hrest hs.2 hout' (List.cons.inj hspine).2).cons hnext
      | false =>
        rw [ho] at hrest
        have hcore : spine (op o :: ts) = spine ts := by simp [core, ho]
        have hstack : spine (ops (.op o l :: (release l stack).2)) = [] := by simp [ops, core, ho, hs.2]
        exact (ih hrest hstack hout (hspine.trans hcore)).cons_of_core (by
          rintro _ ⟨⟩
          exact ho)

/-- Whatever the levels are, a well-formed list is written as the postorder of an expression, which is
listed as the list was written when no postfix operator is overtaken, and only then. -/
theorem exists_inorder_eq_iff (hp : p.Total) (h : Formed ts) :
    ∃ e : Expr, e.Proper ∧ p.reorder [] ts = .ok e.postorder ∧
      (e.inorder = withoutParens ts ↔ p.InTurn ts) := by
  obtain ⟨out, hout, heval⟩ : ∃ out, p.reorder [] ts = .ok out ∧ Evaluates 0 out 1 :=
    exists_reorder hp h.proper (fun _ hm => by cases hm) h.alternates h.balanced
  obtain ⟨e, he, rfl⟩ := exists_postorder_of_evaluates (single_reorder h.proper hout) heval
  refine ⟨e, he, hout, fun hlist => ?_, fun hturn => ?_⟩
  · refine inTurn_of_spine h.alternates (by rfl) hout ?_
    rw [Expr.spine_postorder, hlist, spine_withoutParens]
  · obtain ⟨n, f, hf⟩ := exists_binds hp h hturn
    rw [reorder_of_binds hf] at hout
    rw [← Expr.postorder_injective (Except.ok.inj hout), hf.inorder_eq]

end Precedence

/-! ## Patterns -/

/-- A text is listed in one way. -/
theorem Listing.unique {y : List Char} {us vs : List Token} (h : Listing y us) (h' : Listing y vs) :
    us = vs := by
  cases h with
  | nil =>
    cases h' with
    | nil => rfl
    | expr h' => exact absurd rfl h'.ne_nil
  | expr h =>
    cases h' with
    | nil => exact absurd rfl h.ne_nil
    | expr h' => rw [h.unique h']

namespace Precedence

variable {p : Precedence} {text : List Char}

/-- The explicit form of a pattern is rewritten to a text that is listed in one way: as the tokens of the
explicit form without parentheses, when no postfix operator is directly followed by an operator of a
lower level, and only then. -/
theorem listing_eq_iff (hp : p.Total)
    (h : (∃ k, text = parens k) ∨ ∃ e, Reads .alternation text e) :
    ∃ x ts y us, Pattern.explicit text = .ok x ∧ scan x = .ok ts ∧ p.postorder x = .ok y ∧
      Listing y us ∧ (∀ vs, Listing y vs → vs = us) ∧ (us = withoutParens ts ↔ p.InTurn ts) := by
  rcases h with ⟨k, rfl⟩ | ⟨e, h⟩
  · obtain ⟨ls, hls, htext, hexplicit⟩ := exists_lexemes_of_parens k
    have hproper := Lexeme.proper_explicit hls
    have hout : p.reorder [] (Lexeme.explicit ls) = .ok [] := hexplicit ▸ p.reorder_parens 0 k
    have hparens : ∀ t ∈ Lexeme.explicit ls, t.isParen = true := by
      rw [hexplicit]
      intro t ht
      rcases List.mem_append.1 ht with ht | ht <;> rw [List.eq_of_mem_replicate ht] <;> rfl
    have hturn : p.InTurn (Lexeme.explicit ls) := inTurn_of_forall fun t ht o e => by
      have hop := hparens t ht
      rw [e] at hop
      cases hop
    have hnone : withoutParens (Lexeme.explicit ls) = [] :=
      List.filter_eq_nil_iff.2 fun t ht => by simp [hparens t ht]
    exact ⟨_, _, _, _, Pattern.explicit_eq_ok_iff.2 ⟨ls, hls, htext, rfl⟩, scan_render hproper,
      (postorder_render hproper).2 ⟨_, hout, rfl⟩, .nil, fun vs hvs => hvs.unique .nil,
      fun _ => hturn, fun _ => hnone.symm⟩
  · obtain ⟨ls, hls, htext, hphrase⟩ := exists_lexemes_of_reads h
    have hproper := hphrase.formed.proper
    obtain ⟨f, hf, hout, hiff⟩ := exists_inorder_eq_iff hp hphrase.formed
    have hlisting : Listing (render f.postorder) f.inorder := .expr (postorder_iff.2 ⟨hf, rfl⟩)
    exact ⟨_, _, _, _, Pattern.explicit_eq_ok_iff.2 ⟨ls, hls, htext, rfl⟩, scan_render hproper,
      (postorder_render hproper).2 ⟨_, hout, rfl⟩, hlisting, fun vs hvs => hvs.unique hlisting, hiff⟩

/-- A repetition at the end of a pattern is read last, so it is never overtaken. -/
theorem listing_eq_looseRepetition :
    looseRepetition.Total ∧ (∃ e, Reads .alternation ['a', '|', 'b', '*'] e) ∧
      looseRepetition.postorder ['a', '|', 'b', '*'] = .ok ['a', 'b', '|', '*'] ∧
      ∃ us, Listing ['a', 'b', '|', '*'] us ∧
        us = [symbol 'a', op .alternation, symbol 'b', op .star] := by
  have hp := Compiler.exists_stages_looseRepetition.1
  have hreads : Reads .alternation (['a'] ++ '|' :: (['b'] ++ ['*'])) _ :=
    .alternation (.concatenation (.repetition (.atom (.item (.symbol (by decide))))))
      (.repetition (.star (.atom (.item (.symbol (by decide))))))
  have hturn : looseRepetition.InTurn [symbol 'a', op .alternation, symbol 'b', op .star] :=
    (((InTurn.cons (t := op .star) .nil (by simp)).cons_of_core (by simp)).cons_of_core
      (by rintro _ ⟨⟩; rfl)).cons_of_core (by simp)
  have hexplicit : Pattern.explicit ['a', '|', 'b', '*'] = .ok ['a', '|', 'b', '*'] := by rfl
  have hscan : scan ['a', '|', 'b', '*'] =
      .ok [symbol 'a', op .alternation, symbol 'b', op .star] := by rfl
  have hpost : looseRepetition.postorder ['a', '|', 'b', '*'] = .ok ['a', 'b', '|', '*'] := by rfl
  obtain ⟨x, ts, y, us, hx, hts, hy, hus, -, hiff⟩ := listing_eq_iff hp (.inr ⟨_, hreads⟩)
  cases hexplicit.symm.trans hx
  cases hscan.symm.trans hts
  cases hpost.symm.trans hy
  exact ⟨hp, ⟨_, hreads⟩, hpost, us, hus, hiff.2 hturn⟩

/-- Where alternation binds tighter, it overtakes a repetition that it follows: this comes to apply to
what is written behind it. -/
theorem listing_ne_looseRepetition :
    looseRepetition.Total ∧ (∃ e, Reads .alternation ['a', '*', '|', 'b'] e) ∧
      Pattern.explicit ['a', '*', '|', 'b'] = .ok ['a', '*', '|', 'b'] ∧
      scan ['a', '*', '|', 'b'] = .ok [symbol 'a', op .star, op .alternation, symbol 'b'] ∧
      looseRepetition.postorder ['a', '*', '|', 'b'] = .ok ['a', 'b', '|', '*'] ∧
      ∀ us, Listing ['a', 'b', '|', '*'] us →
        us ≠ withoutParens [symbol 'a', op .star, op .alternation, symbol 'b'] := by
  have hreads : Reads .alternation ((['a'] ++ ['*']) ++ '|' :: ['b']) _ :=
    .alternation (.concatenation (.repetition (.star (.atom (.item (.symbol (by decide)))))))
      (.repetition (.atom (.item (.symbol (by decide)))))
  have hlisting : Listing ['a', 'b', '|', '*'] [symbol 'a', op .alternation, symbol 'b', op .star] :=
    .expr (e := .star (.alternation (.symbol 'a') (.symbol 'b')))
      (postorder_iff.2 ⟨⟨rfl, rfl⟩, rfl⟩)
  refine ⟨Compiler.exists_stages_looseRepetition.1, ⟨_, hreads⟩, by rfl, by rfl, by rfl, ?_⟩
  intro us hus
  rw [hus.unique hlisting]
  decide

end Precedence

end PatternAutomata
