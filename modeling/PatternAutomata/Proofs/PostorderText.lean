import PatternAutomata.Proofs.Grammar
import PatternAutomata.Proofs.Token

/-!
# The grammar of postorder texts

    e := c                     a symbol
    e := lo hi -               a range
    e := e e &    e := e e |    e := e *    e := e +    e := e ?

`Postorder t e` says that the text `t` is generated with the expression `e`.  There is one text for an
expression and one expression for a text, since the tokens of a text can be read back on a stack of
expressions (`Expr.push`):

    Postorder t e ↔ e.Proper ∧ t = render e.postorder                          (postorder_iff)
    taking the postorder of e pushes e on the stack                  (foldlM_push_postorder)
    Postorder t e → Postorder t f → e = f                                   (Postorder.unique)
-/

namespace PatternAutomata

open Token

/-- Whether a text is generated with an expression, each operator behind its operands. -/
inductive Postorder : List Char → Expr → Prop where
  | symbol {c : Char} : isSymbol c = true → Postorder [c] (.symbol c)
  | range {lo hi : Char} : isRange lo hi = true → Postorder [lo, hi, '-'] (.range lo hi)
  | concat {t u : List Char} {e f : Expr} :
    Postorder t e → Postorder u f → Postorder (t ++ u ++ ['&']) (.concat e f)
  | alternation {t u : List Char} {e f : Expr} :
    Postorder t e → Postorder u f → Postorder (t ++ u ++ ['|']) (.alternation e f)
  | star {t : List Char} {e : Expr} : Postorder t e → Postorder (t ++ ['*']) (.star e)
  | plus {t : List Char} {e : Expr} : Postorder t e → Postorder (t ++ ['+']) (.plus e)
  | optional {t : List Char} {e : Expr} : Postorder t e → Postorder (t ++ ['?']) (.optional e)

namespace Expr

/-- An expression with each operator behind its operands. -/
def postorder : Expr → List Token
  | symbol c => [.symbol c]
  | range lo hi => [.symbol lo, .symbol hi, .op .range]
  | concat e f => e.postorder ++ f.postorder ++ [.op .concat]
  | alternation e f => e.postorder ++ f.postorder ++ [.op .alternation]
  | star e => e.postorder ++ [.op .star]
  | plus e => e.postorder ++ [.op .plus]
  | optional e => e.postorder ++ [.op .optional]

/-- Whether all operands are symbols or ranges. -/
def Proper : Expr → Prop
  | symbol c => isSymbol c = true
  | range lo hi => isRange lo hi = true
  | concat e f | alternation e f => e.Proper ∧ f.Proper
  | star e | plus e | optional e => e.Proper

/-- The expression of an operator behind its operand. -/
def unary : Operator → Expr → Expr
  | .star, e => star e
  | .plus, e => plus e
  | _, e => optional e

/-- The expression of an operator between its operands. -/
def binary : Operator → Expr → Expr → Expr
  | .concat, e, f => concat e f
  | _, e, f => alternation e f

variable {o : Operator} {e f : Expr}

theorem postorder_unary (ho : o.isUnary = true) :
    (unary o e).postorder = e.postorder ++ [.op o] := by
  cases o <;> first | exact absurd ho (by decide) | rfl

theorem postorder_binary (ho : o.isUnary = false) (hr : o ≠ .range) :
    (binary o e f).postorder = e.postorder ++ f.postorder ++ [.op o] := by
  cases o <;> first | exact absurd ho (by decide) | exact absurd rfl hr | rfl

theorem proper_unary (o : Operator) (h : e.Proper) : (unary o e).Proper := by
  cases o <;> exact h

theorem proper_binary (o : Operator) (h : e.Proper) (h' : f.Proper) : (binary o e f).Proper := by
  cases o <;> exact ⟨h, h'⟩

theorem single_postorder (h : e.Proper) : ∀ t ∈ e.postorder, t.Single := by
  induction e with
  | symbol c => simpa [postorder, Single, Proper] using h
  | range lo hi => simpa [postorder, Single] using isSymbol_of_isRange h
  | concat e f ih ih' =>
    simpa [postorder, or_imp, forall_and, Single] using ⟨ih h.1, ih' h.2⟩
  | alternation e f ih ih' =>
    simpa [postorder, or_imp, forall_and, Single] using ⟨ih h.1, ih' h.2⟩
  | star e ih => simpa [postorder, or_imp, forall_and, Single] using ih h
  | plus e ih => simpa [postorder, or_imp, forall_and, Single] using ih h
  | optional e ih => simpa [postorder, or_imp, forall_and, Single] using ih h

/-! ## Reading back -/

/-- Takes a token of a postorder on top of the expressions that were read, the last first. -/
def push : List Expr → Token → Option (List Expr)
  | es, .symbol c => some (symbol c :: es)
  | symbol hi :: symbol lo :: es, .op .range => some (range lo hi :: es)
  | f :: e :: es, .op .concat => some (concat e f :: es)
  | f :: e :: es, .op .alternation => some (alternation e f :: es)
  | e :: es, .op .star => some (star e :: es)
  | e :: es, .op .plus => some (plus e :: es)
  | e :: es, .op .optional => some (optional e :: es)
  | _, _ => none

theorem foldlM_push_append {ts us : List Token} {es es' es'' : List Expr}
    (h : ts.foldlM push es = some es') (h' : us.foldlM push es' = some es'') :
    (ts ++ us).foldlM push es = some es'' := by
  rw [List.foldlM_append, h]
  exact h'

/-- The postorder of an expression is read back as the expression. -/
theorem foldlM_push_postorder (e : Expr) (es : List Expr) :
    e.postorder.foldlM push es = some (e :: es) := by
  induction e generalizing es with
  | symbol c => rfl
  | range lo hi => rfl
  | concat e f ih ih' => exact foldlM_push_append (foldlM_push_append (ih es) (ih' _)) rfl
  | alternation e f ih ih' => exact foldlM_push_append (foldlM_push_append (ih es) (ih' _)) rfl
  | star e ih => exact foldlM_push_append (ih es) rfl
  | plus e ih => exact foldlM_push_append (ih es) rfl
  | optional e ih => exact foldlM_push_append (ih es) rfl

theorem postorder_injective (h : e.postorder = f.postorder) : e = f := by
  have he := foldlM_push_postorder e []
  rw [h, foldlM_push_postorder f []] at he
  exact (List.cons.inj (Option.some.inj he)).1.symm

end Expr

theorem postorder_iff {t : List Char} {e : Expr} :
    Postorder t e ↔ e.Proper ∧ t = render e.postorder := by
  constructor
  · intro h
    induction h with
    | symbol hc => exact ⟨hc, rfl⟩
    | range hr => exact ⟨hr, rfl⟩
    | concat _ _ ih ih' =>
      obtain ⟨⟨he, rfl⟩, hf, rfl⟩ := And.intro ih ih'
      exact ⟨⟨he, hf⟩, by simp [Expr.postorder, chars, Operator.symbol]⟩
    | alternation _ _ ih ih' =>
      obtain ⟨⟨he, rfl⟩, hf, rfl⟩ := And.intro ih ih'
      exact ⟨⟨he, hf⟩, by simp [Expr.postorder, chars, Operator.symbol]⟩
    | star _ ih =>
      obtain ⟨he, rfl⟩ := ih
      exact ⟨he, by simp [Expr.postorder, chars, Operator.symbol]⟩
    | plus _ ih =>
      obtain ⟨he, rfl⟩ := ih
      exact ⟨he, by simp [Expr.postorder, chars, Operator.symbol]⟩
    | optional _ ih =>
      obtain ⟨he, rfl⟩ := ih
      exact ⟨he, by simp [Expr.postorder, chars, Operator.symbol]⟩
  · rintro ⟨h, rfl⟩
    induction e with
    | symbol c => exact .symbol h
    | range lo hi => exact .range h
    | concat e f ih ih' =>
      simpa [Expr.postorder, chars, Operator.symbol] using Postorder.concat (ih h.1) (ih' h.2)
    | alternation e f ih ih' =>
      simpa [Expr.postorder, chars, Operator.symbol] using Postorder.alternation (ih h.1) (ih' h.2)
    | star e ih => simpa [Expr.postorder, chars, Operator.symbol] using Postorder.star (ih h)
    | plus e ih => simpa [Expr.postorder, chars, Operator.symbol] using Postorder.plus (ih h)
    | optional e ih =>
      simpa [Expr.postorder, chars, Operator.symbol] using Postorder.optional (ih h)

theorem Postorder.ne_nil {t : List Char} {e : Expr} (h : Postorder t e) : t ≠ [] := by
  cases h <;> simp

/-- A text is generated with one expression only. -/
theorem Postorder.unique {t : List Char} {e f : Expr} (h : Postorder t e) (h' : Postorder t f) :
    e = f := by
  obtain ⟨he, rfl⟩ := postorder_iff.1 h
  obtain ⟨hf, ht⟩ := postorder_iff.1 h'
  have hscan := scanSingly_render (Expr.single_postorder he)
  rw [ht, scanSingly_render (Expr.single_postorder hf)] at hscan
  exact (Expr.postorder_injective (Except.ok.inj hscan)).symm

end PatternAutomata
