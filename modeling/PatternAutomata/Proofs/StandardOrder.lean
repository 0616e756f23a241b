import PatternAutomata.Proofs.Binding

/-!
# Postorder when repetition binds tightest

With one level for the postfix operators, below the levels of the others, a postfix operator applies to
the atom before it, with the postfix operators between them.  Operators between operands are left to
their levels: the one with the lower level binds tighter, and of one level they group to the left.

    Parses p (.below n) ts e        ts has the tree e, by operators below the level n
    Formed ts → ts has one tree, and its postorder is written          (postorder_eq_tree)

The standard levels are of this kind, and their trees are those of the grammar:

    Phrase .alternation ts e → standard.reorder [] ts = .ok e.postorder      (reorder_standard)
-/

namespace PatternAutomata

open Token

/-- What a part of an explicit list consists of. -/
inductive Layer where
  /-- An operand or a group. -/
  | atom
  /-- An atom with postfix operators. -/
  | repetition
  /-- Repetitions, joined by operators below a level. -/
  | below (n : Nat)

/-- The level that all operators of a layer outside of groups are below. -/
def Layer.bound (u : Nat) : Layer → Nat
  | .atom => 0
  | .repetition => u + 1
  | .below n => max n (u + 1)

namespace Precedence

/-- Whether some tokens have an expression as their tree: postfix operators apply to the atom before
them, and the operator with the lower level binds tighter, or the left of two with one level. -/
inductive Parses (p : Precedence) : Layer → List Token → Expr → Prop where
  | symbol {c : Char} : isSymbol c = true → Parses p .atom [symbol c] (.symbol c)
  | range {lo hi : Char} : isRange lo hi = true → Parses p .atom [range lo hi] (.range lo hi)
  | group {n : Nat} {ts : List Token} {e : Expr} :
    Parses p (.below n) ts e → Parses p .atom (leftParen :: ts ++ [rightParen]) e
  | atom {ts : List Token} {e : Expr} : Parses p .atom ts e → Parses p .repetition ts e
  | unary {o : Operator} {ts : List Token} {e : Expr} :
    o.isUnary = true → Parses p .repetition ts e → Parses p .repetition (ts ++ [op o]) (.unary o e)
  | repetition {n : Nat} {ts : List Token} {e : Expr} :
    Parses p .repetition ts e → Parses p (.below n) ts e
  | binary {n l : Nat} {o : Operator} {ts us : List Token} {e f : Expr} :
    o.isUnary = false → o ≠ .range → p.level? o = some l → l < n → Parses p (.below (l + 1)) ts e →
      Parses p (.below l) us f → Parses p (.below n) (ts ++ op o :: us) (.binary o e f)

/-- Whether the postfix operators have one level, and operators between operands higher ones. -/
structure RepetitionTightest (p : Precedence) (u : Nat) : Prop where
  unary : ∀ o : Operator, o.isUnary = true → p.level? o = some u
  binary : ∀ o : Operator, o.isUnary = false → o ≠ .range → ∃ l, p.level? o = some l ∧ u < l

variable {p : Precedence} {u n m : Nat} {k : Layer} {ts : List Token} {e f : Expr}

theorem RepetitionTightest.total (hp : p.RepetitionTightest u) : p.Total := by
  intro o hr
  cases ho : o.isUnary with
  | true => exact ⟨u, hp.unary o ho⟩
  | false =>
    obtain ⟨l, hl, -⟩ := hp.binary o ho hr
    exact ⟨l, hl⟩

theorem RepetitionTightest.le (hp : p.RepetitionTightest u) {o : Operator} (hr : o ≠ .range) {l : Nat}
    (hl : p.level? o = some l) : u ≤ l := by
  cases ho : o.isUnary with
  | true => exact Nat.le_of_eq (Option.some.inj ((hp.unary o ho).symm.trans hl))
  | false =>
    obtain ⟨l', hl', hlt⟩ := hp.binary o ho hr
    cases hl'.symm.trans hl
    exact Nat.le_of_lt hlt

/-- No operator binds tighter than a postfix operator. -/
theorem RepetitionTightest.inTurn (hp : p.RepetitionTightest u) (hts : ∀ t ∈ ts, t.Proper) :
    p.InTurn ts := by
  refine (List.pairwise_of_forall_mem_list fun t _ v hv => ?_).isChain
  rintro ⟨o, o', l, l', rfl, ho, rfl, hl, hl', hlt⟩
  cases (hp.unary o ho).symm.trans hl
  have hle := hp.le (hts _ hv) hl'
  omega

/-! ## Trees and levels -/

theorem Parses.binds (hp : p.RepetitionTightest u) (h : Parses p k ts e) :
    Binds p (k.bound u) ts e := by
  induction h with
  | symbol hc => exact .symbol hc
  | range hr => exact .range hr
  | group _ ih => exact .group ih
  | atom _ ih => exact ih.mono (Nat.zero_le _)
  | unary ho _ ih => exact .unary ho (hp.unary _ ho) (Nat.lt_succ_self u) ih
  | repetition _ ih => exact ih.mono (Nat.le_max_right _ _)
  | @binary n l o ts us e f ho hr hl hlt _ _ ih ih' =>
    obtain ⟨l', hl', hu⟩ := hp.binary o ho hr
    cases hl'.symm.trans hl
    have hleft : Binds p (l + 1) ts e := ih.mono (by simp only [Layer.bound]; omega)
    have hright : Binds p l us f := ih'.mono (by simp only [Layer.bound]; omega)
    exact .binary ho hr hl (Nat.lt_of_lt_of_le hlt (Nat.le_max_left _ _)) hleft hright

theorem Binds.parses (hp : p.RepetitionTightest u) (h : Binds p n ts e) :
    Parses p (.below n) ts e ∧ (n ≤ u + 1 → Parses p .repetition ts e) := by
  have both : ∀ {n ts e}, Parses p .repetition ts e →
      Parses p (.below n) ts e ∧ (n ≤ u + 1 → Parses p .repetition ts e) :=
    fun h => ⟨.repetition h, fun _ => h⟩
  induction h with
  | symbol hc => exact both (.atom (.symbol hc))
  | range hr => exact both (.atom (.range hr))
  | group _ ih => exact both (.atom (.group ih.1))
  | @unary n l o ts e ho hl _ _ ih =>
    cases (hp.unary o ho).symm.trans hl
    exact both (.unary ho (ih.2 (Nat.le_refl _)))
  | @binary n l o ts us e f ho hr hl hlt _ _ ih ih' =>
    obtain ⟨l', hl', hu⟩ := hp.binary o ho hr
    cases hl'.symm.trans hl
    exact ⟨.binary ho hr hl hlt ih.1 ih'.1, fun hn => absurd hn (by omega)⟩

theorem Parses.formed (h : Parses p k ts e) : Formed ts := by
  induction h with
  | symbol hc => exact .symbol hc
  | range hr => exact .range hr
  | group _ ih => exact .group ih
  | atom _ ih => exact ih
  | unary ho _ ih => exact .unary ho ih
  | repetition _ ih => exact ih
  | binary ho hr _ _ _ _ ih ih' => exact .binary ho hr ih ih'

theorem reorder_of_parses (hp : p.RepetitionTightest u) (h : Parses p k ts e) :
    p.reorder [] ts = .ok e.postorder := reorder_of_binds (h.binds hp)

/-- A well-formed list has one tree, and its postorder is what the list is rewritten to. -/
theorem postorder_eq_tree (hp : p.RepetitionTightest u) (h : Formed ts) :
    ∃ e, (∃ n, Parses p (.below n) ts e) ∧ (∀ f n, Parses p (.below n) ts f → f = e) ∧
      p.postorder (render ts) = .ok (render e.postorder) := by
  obtain ⟨n, e, hbinds⟩ := exists_binds hp.total h (hp.inTurn h.proper)
  have hout := reorder_of_binds hbinds
  refine ⟨e, ⟨n, (hbinds.parses hp).1⟩, fun f m hf => ?_, ?_⟩
  · have hf := reorder_of_parses hp hf
    exact Expr.postorder_injective (Except.ok.inj (hf.symm.trans hout))
  · exact (postorder_render h.proper).2 ⟨_, hout, rfl⟩

/-- Levels by which `&` and `|` group to the left among one another. -/
def evenLevels : Precedence :=
  ofList [(.star, 3), (.plus, 3), (.optional, 3), (.concat, 5), (.alternation, 5)]

theorem repetitionTightest_evenLevels : evenLevels.RepetitionTightest 3 := by
  constructor
  · intro o ho
    cases o <;> first | exact absurd ho (by decide) | rfl
  · intro o ho hr
    cases o <;> first | exact absurd ho (by decide) | exact absurd rfl hr | exact ⟨5, rfl, by decide⟩

theorem postorder_eq_tree_evenLevels :
    evenLevels.RepetitionTightest 3 ∧
      evenLevels.postorder ['a', '|', 'b', '-', 'd', '&', '(', 'e', ')', '*', '?'] =
        .ok ['a', 'b', 'd', '-', '|', 'e', '*', '?', '&'] := by
  have hp := repetitionTightest_evenLevels
  have hleft : Parses evenLevels (.below 6) ([symbol 'a'] ++ op .alternation :: [range 'b' 'd']) _ :=
    .binary rfl (by decide) rfl (by decide) (.repetition (.atom (.symbol (by decide))))
      (.repetition (.atom (.range (by decide))))
  have hright : Parses evenLevels .repetition
      ((leftParen :: [symbol 'e'] ++ [rightParen]) ++ [op .star] ++ [op .optional]) _ :=
    .unary rfl (.unary rfl (.atom (.group (n := 0) (.repetition (.atom (.symbol (by decide)))))))
  have htree := Parses.binary (n := 6) (o := .concat) rfl (by decide) rfl (by decide) hleft
    (.repetition hright)
  obtain ⟨e, -, hunique, hpost⟩ := postorder_eq_tree hp htree.formed
  cases hunique _ _ htree
  exact ⟨hp, hpost⟩

end Precedence

/-! ## The standard levels -/

/-- The layer of the phrases of a rank. -/
def Rank.layer : Rank → Layer
  | .atom => .atom
  | .repetition => .repetition
  | .concatenation => .below 2
  | .alternation => .below 3

namespace Precedence

theorem Parses.mono {p : Precedence} {n m : Nat} {ts : List Token} {e : Expr}
    (h : Parses p (.below n) ts e) (hm : n ≤ m) : Parses p (.below m) ts e := by
  cases h with
  | repetition h => exact .repetition h
  | binary ho hr hl hlt h h' => exact .binary ho hr hl (Nat.lt_of_lt_of_le hlt hm) h h'

theorem parses_of_phrase {k : Rank} {ts : List Token} {e : Expr} (h : Phrase k ts e) :
    Parses standard k.layer ts e := by
  induction h with
  | symbol hc => exact .symbol hc
  | range hr => exact .range hr
  | group _ ih => exact .group ih
  | atom _ ih => exact .atom ih
  | unary ho _ ih => exact .unary ho ih
  | repetition _ ih => exact .repetition ih
  | concat _ _ ih ih' =>
    exact .binary (o := .concat) rfl (by decide) rfl (Nat.lt_succ_self 1) ih (.repetition ih')
  | concatenation _ ih => exact ih.mono (Nat.le_succ 2)
  | alternation _ _ ih ih' =>
    exact .binary (o := .alternation) rfl (by decide) rfl (Nat.lt_succ_self 2) ih ih'

theorem repetitionTightest_standard : standard.RepetitionTightest 0 := by
  constructor
  · intro o ho
    cases o <;> first | exact absurd ho (by decide) | rfl
  · intro o ho hr
    cases o <;> first
      | exact absurd ho (by decide)
      | exact absurd rfl hr
      | exact ⟨_, rfl, by decide⟩

theorem reorder_standard {ts : List Token} {e : Expr} (h : Phrase .alternation ts e) :
    standard.reorder [] ts = .ok e.postorder :=
  reorder_of_parses repetitionTightest_standard (parses_of_phrase h)

end Precedence

end PatternAutomata
