import Mathlib.Data.List.Chain
import PatternAutomata.Proofs.Postorder

/-!
# How operators bind

`Binds p n ts e` says that the tokens `ts` are put together to the expression `e` as the levels of `p`
tell, with operators below the level `n` outside of groups.  The operand on the left of an operator may
have operators up to the level of the operator, the one on the right only below it.  An operator that is
read meets the waiting operators that stand on its left, so it releases what it takes and nothing below
(`Reorders`):

    Binds p n ts e → p.reorder [] ts = .ok e.postorder                      (reorder_of_binds)

A postfix operator takes what is on its left when it is read.  So it must not wait while an operator of
a lower level is read, which would come out before it (`Overtakes`).  This is all that can go wrong:

    Formed ts → p.InTurn ts → ∃ n e, Binds p n ts e                             (exists_binds)
-/

namespace PatternAutomata

open Token

open Waiting hiding op

namespace Waiting

/-! ## What is released -/

/-- Whether no operator below a level releases anything. -/
def Guards (n : Nat) (stack : List Waiting) : Prop :=
  ∀ o l rest, stack = .op o l :: rest → n ≤ l

theorem Guards.mono {n m : Nat} {stack : List Waiting} (h : Guards n stack) (hm : m ≤ n) :
    Guards m stack := fun o l rest e => Nat.le_trans hm (h o l rest e)

theorem guards_group (n : Nat) (stack : List Waiting) : Guards n (.group :: stack) :=
  fun _ _ _ e => by cases e

theorem guards_op (o : Operator) (l : Nat) (stack : List Waiting) : Guards l (.op o l :: stack) := by
  rintro _ _ _ ⟨⟩
  exact Nat.le_refl l

theorem Guards.release_eq {l : Nat} {stack : List Waiting} (h : Guards (l + 1) stack) :
    release l stack = ([], stack) := by
  cases stack with
  | nil => rfl
  | cons w stack =>
    cases w with
    | group => rfl
    | op o l' =>
      have := h o l' stack rfl
      unfold release
      rw [if_neg (by omega)]

/-- Whether operators below a level are all that waits. -/
def Within (n : Nat) (stack : List Waiting) : Prop :=
  ∀ w ∈ stack, ∃ o l, w = .op o l ∧ l < n

theorem Within.tail {n : Nat} {w : Waiting} {stack : List Waiting} (h : Within n (w :: stack)) :
    Within n stack := fun v hv => h v (List.mem_cons_of_mem w hv)

theorem Within.mono {n m : Nat} {stack : List Waiting} (h : Within n stack) (hm : n ≤ m) :
    Within m stack := by
  intro w hw
  obtain ⟨o, l, e, hl⟩ := h w hw
  exact ⟨o, l, e, Nat.lt_of_lt_of_le hl hm⟩

theorem within_singleton (o : Operator) {l n : Nat} (h : l < n) : Within n [.op o l] := by
  intro w hw
  exact ⟨o, l, List.mem_singleton.1 hw, h⟩

theorem Within.append {n : Nat} {s t : List Waiting} (hs : Within n s) (ht : Within n t) :
    Within n (s ++ t) := by
  intro w hw
  rcases List.mem_append.1 hw with hw | hw
  · exact hs w hw
  · exact ht w hw

theorem Within.release_append {l : Nat} {pending stack : List Waiting} (h : Within (l + 1) pending)
    (hs : Guards (l + 1) stack) : release l (pending ++ stack) = (ops pending, stack) := by
  induction pending with
  | nil => exact hs.release_eq
  | cons w pending ih =>
    obtain ⟨o, l', rfl, hl⟩ := h w List.mem_cons_self
    rw [List.cons_append, release, if_pos (Nat.le_of_lt_succ hl), ih h.tail]
    rfl

theorem Within.closeGroup_append {n : Nat} {pending : List Waiting} (h : Within n pending)
    (stack : List Waiting) : closeGroup (pending ++ .group :: stack) = .ok (ops pending, stack) := by
  induction pending with
  | nil => rfl
  | cons w pending ih =>
    obtain ⟨o, l, rfl, -⟩ := h w List.mem_cons_self
    rw [List.cons_append, closeGroup, ih h.tail]
    rfl

theorem Within.releaseAll_eq {n : Nat} {pending : List Waiting} (h : Within n pending) :
    releaseAll pending = .ok (ops pending) := by
  induction pending with
  | nil => rfl
  | cons w pending ih =>
    obtain ⟨o, l, rfl, -⟩ := h w List.mem_cons_self
    rw [releaseAll, ih h.tail]
    rfl

end Waiting

namespace Precedence

theorem bind_ok_eq_map {ε α β : Type} (x : Except ε α) (f : α → β) :
    (x >>= fun a => .ok (f a)) = x.map f := by
  cases x <;> rfl

theorem map_map {ε α β γ : Type} (x : Except ε α) (f : α → β) (g : β → γ) :
    (x.map f).map g = x.map fun a => g (f a) := by
  cases x <;> rfl

variable {p : Precedence} {n m l : Nat} {o : Operator} {ts us whole whole' : List Token} {e f : Expr}

/-! ## What is written and what waits -/

/-- Whether reading some tokens writes the beginning of a list and leaves the rest waiting, as far as
nothing below can be released. -/
def Reorders (p : Precedence) (n : Nat) (ts whole : List Token) : Prop :=
  ∃ written pending, whole = written ++ ops pending ∧ Within n pending ∧
    ∀ stack rest, Guards n stack →
      p.reorder stack (ts ++ rest) = (p.reorder (pending ++ stack) rest).map (written ++ ·)

theorem reorders_symbol (p : Precedence) (n : Nat) (c : Char) :
    Reorders p n [symbol c] [symbol c] := by
  refine ⟨[symbol c], [], rfl, by simp [Within], fun stack rest _ => ?_⟩
  rw [List.singleton_append, reorder]
  exact bind_ok_eq_map _ _

theorem reorders_range (p : Precedence) (n : Nat) (lo hi : Char) :
    Reorders p n [range lo hi] [symbol lo, symbol hi, op .range] := by
  refine ⟨[symbol lo, symbol hi, op .range], [], rfl, by simp [Within], fun stack rest _ => ?_⟩
  rw [List.singleton_append, reorder]
  exact bind_ok_eq_map _ _

theorem reorder_op (ho : p.level? o = some l) {pending stack : List Waiting}
    (hp : Within (l + 1) pending) (hs : Guards (l + 1) stack) (rest : List Token) :
    p.reorder (pending ++ stack) (op o :: rest) =
      (p.reorder (.op o l :: stack) rest).map (ops pending ++ ·) := by
  rw [reorder, ho]
  dsimp only
  rw [hp.release_append hs]
  exact bind_ok_eq_map _ _

/-- An operator behind its operand. -/
theorem Reorders.unary (ho : p.level? o = some l) (hl : l < n) (h : Reorders p (l + 1) ts whole) :
    Reorders p n (ts ++ [Token.op o]) (whole ++ [Token.op o]) := by
  obtain ⟨written, pending, rfl, hp, h⟩ := h
  refine ⟨written ++ ops pending, [.op o l], rfl, within_singleton o hl, fun stack rest hs => ?_⟩
  have hs := hs.mono hl
  rw [List.append_assoc, h _ _ hs, List.singleton_append, reorder_op ho hp hs, map_map]
  simp

/-- An operator between operands, of which the second binds tighter. -/
theorem Reorders.binary (ho : p.level? o = some l) (hl : l < n) (h : Reorders p (l + 1) ts whole)
    (h' : Reorders p l us whole') :
    Reorders p n (ts ++ Token.op o :: us) (whole ++ whole' ++ [Token.op o]) := by
  obtain ⟨written, pending, rfl, hp, h⟩ := h
  obtain ⟨written', pending', rfl, hp', h'⟩ := h'
  refine ⟨written ++ ops pending ++ written', pending' ++ [.op o l], by simp [ops],
    (hp'.mono (Nat.le_of_lt hl)).append (within_singleton o hl), fun stack rest hs => ?_⟩
  have hs := hs.mono hl
  rw [List.append_assoc, h _ _ hs, List.cons_append, reorder_op ho hp hs,
    h' _ _ (guards_op o l stack), map_map, map_map]
  simp

theorem Reorders.group (h : Reorders p m ts whole) (n : Nat) :
    Reorders p n (leftParen :: ts ++ [rightParen]) whole := by
  obtain ⟨written, pending, rfl, hp, h⟩ := h
  refine ⟨written ++ ops pending, [], by simp [ops], by simp [Within], fun stack rest _ => ?_⟩
  rw [List.append_assoc, List.cons_append, reorder, h _ _ (guards_group m stack),
    List.singleton_append, reorder, hp.closeGroup_append]
  show ((p.reorder stack rest >>= fun out => .ok (ops pending ++ out)).map _) = _
  rw [bind_ok_eq_map, map_map]
  simp

/-! ## What binds -/

/-- Whether tokens are put together to an expression as the levels tell, with operators below `n`
outside of groups. -/
inductive Binds (p : Precedence) : Nat → List Token → Expr → Prop where
  | symbol {n : Nat} {c : Char} : isSymbol c = true → Binds p n [symbol c] (.symbol c)
  | range {n : Nat} {lo hi : Char} : isRange lo hi = true → Binds p n [range lo hi] (.range lo hi)
  | group {n m : Nat} {ts : List Token} {e : Expr} :
    Binds p m ts e → Binds p n (leftParen :: ts ++ [rightParen]) e
  | unary {n l : Nat} {o : Operator} {ts : List Token} {e : Expr} :
    o.isUnary = true → p.level? o = some l → l < n → Binds p (l + 1) ts e →
      Binds p n (ts ++ [op o]) (.unary o e)
  | binary {n l : Nat} {o : Operator} {ts us : List Token} {e f : Expr} :
    o.isUnary = false → o ≠ .range → p.level? o = some l → l < n → Binds p (l + 1) ts e →
      Binds p l us f → Binds p n (ts ++ op o :: us) (.binary o e f)

theorem Binds.mono (h : Binds p n ts e) (hm : n ≤ m) : Binds p m ts e := by
  cases h with
  | symbol hc => exact .symbol hc
  | range hr => exact .range hr
  | group h => exact .group h
  | unary ho hl hlt h => exact .unary ho hl (Nat.lt_of_lt_of_le hlt hm) h
  | binary ho hr hl hlt h h' => exact .binary ho hr hl (Nat.lt_of_lt_of_le hlt hm) h h'

theorem Binds.reorders (h : Binds p n ts e) : Reorders p n ts e.postorder := by
  induction h with
  | symbol _ => exact reorders_symbol p _ _
  | range _ => exact reorders_range p _ _ _
  | group _ ih => exact ih.group _
  | unary ho hl hlt _ ih =>
    rw [Expr.postorder_unary ho]
    exact ih.unary hl hlt
  | binary ho hr hl hlt _ _ ih ih' =>
    rw [Expr.postorder_binary ho hr]
    exact ih.binary hl hlt ih'

theorem reorder_of_binds (h : Binds p n ts e) : p.reorder [] ts = .ok e.postorder := by
  obtain ⟨written, pending, hw, hp, h⟩ := h.reorders
  have hempty := h [] [] fun _ _ _ e => by cases e
  rw [List.append_nil, List.append_nil, reorder, hp.releaseAll_eq] at hempty
  rw [hempty, hw]
  rfl

/-! ## What can be bound -/

/-- Whether an operator right behind a postfix operator binds tighter than it. -/
def Overtakes (p : Precedence) (t u : Token) : Prop :=
  ∃ o o' l l', t = op o ∧ o.isUnary = true ∧ u = op o' ∧ p.level? o = some l ∧
    p.level? o' = some l' ∧ l' < l

/-- Whether no postfix operator is overtaken. -/
def InTurn (p : Precedence) (ts : List Token) : Prop := ts.IsChain fun t u => ¬ p.Overtakes t u

/-- An operator behind the tokens takes as much of their end as binds tighter.  What follows it is up
to the caller: nothing, or an operand. -/
theorem Binds.exists_append {ws : List Token} {g : Expr → Expr} (h : Binds p n ts e)
    (hlast : ∀ o' l', ts.getLast? = some (op o') → o'.isUnary = true → p.level? o' = some l' → l' ≤ l)
    (hws : ∀ {us f m}, Binds p (l + 1) us f → l < m → Binds p m (us ++ ws) (g f)) :
    ∃ f, Binds p (max n (l + 1)) (ts ++ ws) f := by
  have whole : ∀ {us f m}, Binds p (l + 1) us f → ∃ f, Binds p (max m (l + 1)) (us ++ ws) f :=
    fun h => ⟨_, hws h (Nat.lt_of_lt_of_le (Nat.lt_succ_self l) (Nat.le_max_right _ _))⟩
  induction h with
  | symbol hc => exact whole (.symbol hc)
  | range hr => exact whole (.range hr)
  | group h _ => exact whole (.group h)
  | @unary n l' o' ts e ho hl _ h _ =>
    have hle : l' ≤ l := hlast o' l' (by simp) ho hl
    exact whole (.unary ho hl (Nat.lt_succ_of_le hle) h)
  | @binary n l' o' ts us e f ho hr hl hlt h h' _ ih =>
    by_cases hle : l' ≤ l
    · exact whole (.binary ho hr hl (Nat.lt_succ_of_le hle) h h')
    · -- The operator belongs to the operand on the right.
      obtain ⟨f', hf⟩ := ih fun o₁ l₁ h₁ => hlast o₁ l₁ (by simp [List.getLast?_cons, h₁])
      rw [Nat.max_eq_left (by omega)] at hf
      rw [List.append_assoc, List.cons_append]
      exact ⟨_, .binary ho hr hl (Nat.lt_of_lt_of_le hlt (Nat.le_max_left _ _)) h hf⟩

/-- What an operator is appended to does not end with a postfix operator that it overtakes. -/
theorem InTurn.le_of_getLast? {ws : List Token} (h : p.InTurn (ts ++ op o :: ws))
    (ho : p.level? o = some l) (o' : Operator) (l' : Nat) (hlast : ts.getLast? = some (op o'))
    (ho' : o'.isUnary = true) (hl' : p.level? o' = some l') : l' ≤ l := by
  have hnot := (List.isChain_append.1 h).2.2 (op o') hlast (op o) rfl
  by_contra hlt
  exact hnot ⟨o', o, l', l, rfl, ho', rfl, hl', ho, Nat.lt_of_not_le hlt⟩

theorem InTurn.left {ws : List Token} (h : p.InTurn (ts ++ ws)) : p.InTurn ts :=
  (List.isChain_append.1 h).1

theorem InTurn.right {ws : List Token} (h : p.InTurn (ts ++ ws)) : p.InTurn ws :=
  (List.isChain_append.1 h).2.1

theorem InTurn.tail {t : Token} (h : p.InTurn (t :: ts)) : p.InTurn ts := List.IsChain.tail h

theorem Binds.exists_unary (h : Binds p n ts e) (ho : o.isUnary = true) (hl : p.level? o = some l)
    (ht : p.InTurn (ts ++ [op o])) : ∃ m f, Binds p m (ts ++ [op o]) f := by
  obtain ⟨f, hf⟩ := h.exists_append (ht.le_of_getLast? hl) fun h hlt => .unary ho hl hlt h
  exact ⟨_, f, hf⟩

/-- Two operands with an operator between them.  The operators of the second are read one by one, and
each takes its share of all that stands on its left. -/
theorem Binds.exists_binary (hp : p.Total) (h' : Binds p m us f) (h : Binds p n ts e)
    (ho : o.isUnary = false) (hr : o ≠ .range) (ht : p.InTurn (ts ++ op o :: us)) :
    ∃ k g, Binds p k (ts ++ op o :: us) g := by
  have atom : ∀ {us f n ts e o}, (∀ n, Binds p n us f) → Binds p n ts e → o.isUnary = false →
      o ≠ .range → p.InTurn (ts ++ op o :: us) → ∃ k g, Binds p k (ts ++ op o :: us) g := by
    intro us f n ts e o hatom h ho hr ht
    obtain ⟨l, hl⟩ := hp o hr
    obtain ⟨g, hg⟩ := h.exists_append (ht.le_of_getLast? hl) fun h hlt =>
      .binary ho hr hl hlt h (hatom l)
    exact ⟨_, g, hg⟩
  induction h' generalizing n ts e o with
  | symbol hc => exact atom (fun n => .symbol hc) h ho hr ht
  | range hrange => exact atom (fun n => .range hrange) h ho hr ht
  | group h' _ => exact atom (fun n => .group h') h ho hr ht
  | @unary m l' o' us f ho' hl' _ h' ih =>
    have hassoc : ts ++ op o :: (us ++ [op o']) = (ts ++ op o :: us) ++ [op o'] := by simp
    rw [hassoc] at ht ⊢
    obtain ⟨k, g, hg⟩ := ih h ho hr ht.left
    exact hg.exists_unary ho' hl' ht
  | @binary m l' o' us vs f f' ho' hr' _ _ h' h'' ih ih' =>
    have hassoc : ts ++ op o :: (us ++ op o' :: vs) = (ts ++ op o :: us) ++ op o' :: vs := by simp
    rw [hassoc] at ht ⊢
    obtain ⟨k, g, hg⟩ := ih h ho hr ht.left
    exact ih' hg ho' hr' ht

/-- What is well formed and in turn can be put together. -/
theorem exists_binds (hp : p.Total) (h : Formed ts) (ht : p.InTurn ts) : ∃ n e, Binds p n ts e := by
  induction h with
  | symbol hc => exact ⟨0, _, .symbol hc⟩
  | range hr => exact ⟨0, _, .range hr⟩
  | group _ ih =>
    obtain ⟨n, e, h⟩ := ih ht.left.tail
    exact ⟨0, e, .group h⟩
  | @unary o ts ho _ ih =>
    obtain ⟨l, hl⟩ := hp o (by
      rintro rfl
      cases ho)
    obtain ⟨n, e, h⟩ := ih ht.left
    exact h.exists_unary ho hl ht
  | binary ho hr _ _ ih ih' =>
    obtain ⟨n, e, h⟩ := ih ht.left
    obtain ⟨m, f, h'⟩ := ih' ht.right.tail
    exact h'.exists_binary hp h ho hr ht

end Precedence

end PatternAutomata
