import PatternAutomata.Pattern.Explicit
import PatternAutomata.Proofs.PostorderText

/-!
# Explicit phrases

With every concatenation written out, an explicit pattern alternates: an operand is expected at the
beginning, behind a parenthesis that opens and behind an operator between operands, and nowhere else.
Counting an operand up and an operator between operands down, a joined list never comes out above
one, and at one only when it alternates all the way:

    net (joined false ts) ≤ 1                                                 (net_joined_le)
    net (joined false ts) = 1 → Alternates false (joined false ts)             (alternates_joined)

What is well formed alternates and has its parentheses balanced (`Formed.alternates_append`,
`Formed.balanced_append`), whatever the levels of its operators are.  A phrase is well formed, and
its ranks are those of the grammar.
-/

namespace PatternAutomata

open Token

namespace Token

/-- Whether an operand begins with this token. -/
def begins : Token → Bool
  | symbol _ | range _ _ | leftParen => true
  | op _ | rightParen => false

/-- Whether an operand, with its operators, ends with this token. -/
def ends : Token → Bool
  | symbol _ | range _ _ | rightParen => true
  | op o => o.isUnary
  | leftParen => false

@[simp] theorem begins_op (o : Operator) : (op o).begins = false := rfl

@[simp] theorem ends_op (o : Operator) : (op o).ends = o.isUnary := rfl

@[simp] theorem isUnary_concat : Operator.concat.isUnary = false := rfl

@[simp] theorem isUnary_alternation : Operator.alternation.isUnary = false := rfl

/-- What a token adds to the number of operands. -/
def weight : Token → Int
  | symbol _ | range _ _ => 1
  | op o => 1 - o.arity
  | leftParen | rightParen => 0

/-- How many operands remain when all operators are applied. -/
def net (ts : List Token) : Int := ts.foldr (fun t n => t.weight + n) 0

@[simp] theorem net_nil : net [] = 0 := rfl

@[simp] theorem net_cons (t : Token) (ts : List Token) : net (t :: ts) = t.weight + net ts :=
  rfl

@[simp] theorem net_append (ts us : List Token) : net (ts ++ us) = net ts + net us := by
  induction ts with
  | nil => exact (Int.zero_add _).symm
  | cons t ts ih => rw [List.cons_append, net_cons, net_cons, ih, Int.add_assoc]

end Token

namespace Pattern

/-! ## Writing concatenation out -/

/-- The sign of concatenation, where an operand ends and another begins. -/
def lead (after : Bool) (t : Token) : List Token := if after && t.begins then [op .concat] else []

/-- The tokens with every concatenation written out, when `after` an operand. -/
def joined : Bool → List Token → List Token
  | _, [] => []
  | after, t :: ts => lead after t ++ t :: joined t.ends ts

theorem not_continues_eq {t : Token} (h : t.Proper) : (!continues t) = t.begins := by
  cases t with
  | op o => cases o <;> first | rfl | exact absurd rfl h
  | _ => rfl

theorem ends_eq (t : Token) : t.ends = (closes t || t.isOperand) := by
  cases t <;> simp [ends, closes, isOperand]

theorem begins_eq (t : Token) : t.begins = (t.isOperand || decide (t = leftParen)) := by
  cases t <;> simp [begins, isOperand]

theorem concatBetween_eq (t : Token) {u : Token} (hu : u.Proper) :
    concatBetween t u = (t.ends && u.begins) := by
  rw [concatBetween, not_continues_eq hu, ← begins_eq, ends_eq, Bool.and_or_distrib_right]

theorem withConcat_cons {ts : List Token} (h : ∀ t ∈ ts, t.Proper) (t : Token) :
    withConcat (t :: ts) = t :: joined t.ends ts := by
  induction ts generalizing t with
  | nil => rfl
  | cons u ts ih =>
    have hu := ih (fun v hv => h v (List.mem_cons_of_mem _ hv)) u
    rw [withConcat, concatBetween_eq t (h u List.mem_cons_self), hu, joined, lead]
    split <;> rfl

theorem withConcat_eq {ts : List Token} (h : ∀ t ∈ ts, t.Proper) :
    withConcat ts = joined false ts := by
  cases ts with
  | nil => rfl
  | cons t ts => exact withConcat_cons (fun u hu => h u (List.mem_cons_of_mem _ hu)) t

theorem proper_joined {ts : List Token} (h : ∀ t ∈ ts, t.Proper) (after : Bool) :
    ∀ t ∈ joined after ts, t.Proper := by
  induction ts generalizing after with
  | nil => simp [joined]
  | cons u ts ih =>
    intro t ht
    rcases List.mem_append.1 ht with ht | ht
    · unfold lead at ht
      split at ht
      · rw [List.mem_singleton.1 ht]
        exact fun e => by cases e
      · cases ht
    · rcases List.mem_cons.1 ht with rfl | ht
      · exact h t List.mem_cons_self
      · exact ih (fun v hv => h v (List.mem_cons_of_mem _ hv)) u.ends t ht

theorem joined_cons_of_not_begins {t : Token} (h : t.begins = false) (after : Bool) (ts : List Token) :
    joined after (t :: ts) = t :: joined t.ends ts := by
  rw [joined, lead, h, Bool.and_false]
  rfl

/-- Between a sign of concatenation and its operands nothing more is meant. -/
theorem joined_joined (after : Bool) (ts : List Token) :
    joined after (joined after ts) = joined after ts := by
  induction ts generalizing after with
  | nil => rfl
  | cons t ts ih =>
    rw [joined]
    unfold lead
    split
    · rw [List.singleton_append, joined_cons_of_not_begins rfl, joined, lead, ends_op, ih]
      rfl
    · next h =>
      rw [List.nil_append, joined, lead, if_neg h, ih]
      rfl

/-! ## Alternating lists -/

/-- Whether operands stand where they are expected, and nowhere else. -/
def Alternates : Bool → List Token → Prop
  | after, [] => after = true
  | after, t :: ts => (t.begins = true ↔ after = false) ∧ Alternates t.ends ts

/-- Whether the parentheses of a list match, when `depth` of them are open before it. -/
def Balanced : Nat → List Token → Prop
  | depth, [] => depth = 0
  | depth, .leftParen :: ts => Balanced (depth + 1) ts
  | 0, .rightParen :: _ => False
  | depth + 1, .rightParen :: ts => Balanced depth ts
  | depth, _ :: ts => Balanced depth ts

@[simp] theorem balanced_op (depth : Nat) (o : Operator) (ts : List Token) :
    Balanced depth (op o :: ts) ↔ Balanced depth ts := by
  cases depth <;> rfl

@[simp] theorem balanced_symbol (depth : Nat) (c : Char) (ts : List Token) :
    Balanced depth (symbol c :: ts) ↔ Balanced depth ts := by
  cases depth <;> rfl

@[simp] theorem balanced_range (depth : Nat) (lo hi : Char) (ts : List Token) :
    Balanced depth (range lo hi :: ts) ↔ Balanced depth ts := by
  cases depth <;> rfl

@[simp] theorem balanced_leftParen (depth : Nat) (ts : List Token) :
    Balanced depth (leftParen :: ts) ↔ Balanced (depth + 1) ts := by
  cases depth <;> rfl

@[simp] theorem balanced_rightParen (depth : Nat) (ts : List Token) :
    Balanced (depth + 1) (rightParen :: ts) ↔ Balanced depth ts := Iff.rfl

theorem balanced_lead_append (after : Bool) (t : Token) (depth : Nat) (ts : List Token) :
    Balanced depth (lead after t ++ ts) ↔ Balanced depth ts := by
  unfold lead
  split
  · exact balanced_op depth .concat ts
  · rfl

theorem alternates_joined_cons {after : Bool} {t : Token} {ts : List Token} :
    Alternates after (joined after (t :: ts)) ↔
      (t.begins = true ∨ after = true) ∧ Alternates t.ends (joined t.ends ts) := by
  rw [joined, lead]
  cases after <;> cases hb : t.begins <;> simp [Alternates, hb]

theorem net_lead (after : Bool) (t : Token) :
    net (lead after t) = if after && t.begins then -1 else 0 := by
  unfold lead
  split <;> rfl

/-- No list has more than one operand left over. -/
theorem net_joined_le (after : Bool) (ts : List Token) :
    net (joined after ts) ≤ if after then 0 else 1 := by
  induction ts generalizing after with
  | nil => cases after <;> simp [joined]
  | cons t ts ih =>
    have ht := ih t.ends
    rw [joined, net_append, net_cons, net_lead]
    cases t with
    | op o =>
      have hw : (op o).weight + (if (op o).ends = true then 0 else 1) = 0 := by cases o <;> rfl
      cases after <;> simp only [begins, Bool.and_false, Bool.false_eq_true, if_false, if_true] <;>
        omega
    | _ => cases after <;> simp_all [begins, ends, weight] <;> omega

/-- One operand is left over only when the list alternates. -/
theorem alternates_joined {after : Bool} {ts : List Token}
    (h : net (joined after ts) = if after then 0 else 1) : Alternates after (joined after ts) := by
  induction ts generalizing after with
  | nil =>
    cases after
    · simp [joined] at h
    · rfl
  | cons t ts ih =>
    have ht := net_joined_le t.ends ts
    rw [alternates_joined_cons]
    rw [joined, net_append, net_cons, net_lead] at h
    cases t with
    | op o =>
      have hw : (op o).weight + (if (op o).ends = true then 0 else 1) = 0 := by cases o <;> rfl
      cases after with
      | false =>
        simp only [begins, Bool.and_false, Bool.false_eq_true, if_false] at h
        omega
      | true =>
        simp only [begins, Bool.and_false, Bool.false_eq_true, if_false, if_true] at h
        exact ⟨.inr rfl, ih (by omega)⟩
    | rightParen =>
      cases after with
      | false =>
        simp only [begins, ends, weight, Bool.and_false, Bool.false_eq_true, if_false, if_true] at h ht
        omega
      | true =>
        refine ⟨.inr rfl, ih ?_⟩
        simpa [begins, ends, weight] using h
    | symbol c =>
      refine ⟨.inl rfl, ih ?_⟩
      cases after <;> simp [begins, ends, weight] at h ⊢ <;> omega
    | range lo hi =>
      refine ⟨.inl rfl, ih ?_⟩
      cases after <;> simp [begins, ends, weight] at h ⊢ <;> omega
    | leftParen =>
      refine ⟨.inl rfl, ih ?_⟩
      cases after <;> simp [begins, ends, weight] at h ⊢ <;> omega

end Pattern

/-! ## Lists that are well formed -/

/-- Whether explicit tokens are put together from operands, groups and operators, however they
bind. -/
inductive Formed : List Token → Prop where
  | symbol {c : Char} : isSymbol c = true → Formed [symbol c]
  | range {lo hi : Char} : isRange lo hi = true → Formed [range lo hi]
  | group {ts : List Token} : Formed ts → Formed (leftParen :: ts ++ [rightParen])
  | unary {o : Operator} {ts : List Token} : o.isUnary = true → Formed ts → Formed (ts ++ [op o])
  | binary {o : Operator} {ts us : List Token} :
    o.isUnary = false → o ≠ .range → Formed ts → Formed us → Formed (ts ++ op o :: us)

namespace Formed

open Pattern

variable {ts : List Token}

theorem proper (h : Formed ts) : ∀ t ∈ ts, t.Proper := by
  induction h with
  | symbol hc => simpa [Token.Proper] using hc
  | range h => simpa [Token.Proper] using h
  | group _ ih => simpa [Token.Proper, or_imp, forall_and] using ih
  | @unary o _ ho _ ih =>
    have hr : o ≠ .range := by
      rintro rfl
      cases ho
    simpa [Token.Proper, or_imp, forall_and, hr] using ih
  | binary _ hr _ _ ih ih' => simpa [Token.Proper, or_imp, forall_and, hr] using ⟨ih, ih'⟩

/-- What is well formed stands where an operand is expected. -/
theorem alternates_append (h : Formed ts) (us : List Token) :
    Alternates false (ts ++ us) ↔ Alternates true us := by
  induction h generalizing us with
  | symbol => simp [Alternates, begins, ends]
  | range => simp [Alternates, begins, ends]
  | group _ ih =>
    rw [List.cons_append, List.cons_append, List.append_assoc]
    simp [Alternates, begins, ends, ih]
  | unary ho _ ih =>
    rw [List.append_assoc, ih]
    simp [Alternates, ho]
  | binary ho _ _ _ ih ih' =>
    rw [List.append_assoc, ih]
    simp [Alternates, ho, ih']

theorem alternates (h : Formed ts) : Alternates false ts := by
  have halt := h.alternates_append []
  rw [List.append_nil] at halt
  exact halt.2 rfl

/-- What is well formed closes what it opens. -/
theorem balanced_append (h : Formed ts) (depth : Nat) (us : List Token) :
    Balanced depth (ts ++ us) ↔ Balanced depth us := by
  induction h generalizing depth us with
  | symbol => simp
  | range => simp
  | group _ ih =>
    rw [List.cons_append, List.cons_append, List.append_assoc]
    simp [ih]
  | unary _ _ ih =>
    rw [List.append_assoc, ih]
    simp
  | binary _ _ _ _ ih ih' =>
    rw [List.append_assoc, ih]
    simp [ih']

theorem balanced (h : Formed ts) : Balanced 0 ts := by
  have hbal := h.balanced_append 0 []
  rw [List.append_nil] at hbal
  exact hbal.2 rfl

end Formed

/-! ## Phrases -/

/-- Whether explicit tokens are a phrase of a rank with an expression. -/
inductive Phrase : Rank → List Token → Expr → Prop where
  | symbol {c : Char} : isSymbol c = true → Phrase .atom [symbol c] (.symbol c)
  | range {lo hi : Char} : isRange lo hi = true → Phrase .atom [range lo hi] (.range lo hi)
  | group {ts : List Token} {e : Expr} :
    Phrase .alternation ts e → Phrase .atom (leftParen :: ts ++ [rightParen]) e
  | atom {ts : List Token} {e : Expr} : Phrase .atom ts e → Phrase .repetition ts e
  | unary {o : Operator} {ts : List Token} {e : Expr} :
    o.isUnary = true → Phrase .repetition ts e → Phrase .repetition (ts ++ [op o]) (.unary o e)
  | repetition {ts : List Token} {e : Expr} : Phrase .repetition ts e → Phrase .concatenation ts e
  | concat {ts us : List Token} {e f : Expr} :
    Phrase .concatenation ts e → Phrase .repetition us f →
      Phrase .concatenation (ts ++ op .concat :: us) (.concat e f)
  | concatenation {ts : List Token} {e : Expr} :
    Phrase .concatenation ts e → Phrase .alternation ts e
  | alternation {ts us : List Token} {e f : Expr} :
    Phrase .alternation ts e → Phrase .concatenation us f →
      Phrase .alternation (ts ++ op .alternation :: us) (.alternation e f)

/-- A phrase is well formed. -/
theorem Phrase.formed {k : Rank} {ts : List Token} {e : Expr} (h : Phrase k ts e) : Formed ts := by
  induction h with
  | symbol hc => exact .symbol hc
  | range hr => exact .range hr
  | group _ ih => exact .group ih
  | atom _ ih => exact ih
  | unary ho _ ih => exact .unary ho ih
  | repetition _ ih => exact ih
  | concat _ _ ih ih' => exact .binary rfl (by decide) ih ih'
  | concatenation _ ih => exact ih
  | alternation _ _ ih ih' => exact .binary rfl (by decide) ih ih'

/-- The operands of a phrase are symbols and ranges. -/
theorem Phrase.proper {k : Rank} {ts : List Token} {e : Expr} (h : Phrase k ts e) : e.Proper := by
  induction h with
  | symbol hc => exact hc
  | range hr => exact hr
  | group _ ih => exact ih
  | atom _ ih => exact ih
  | unary _ _ ih => exact Expr.proper_unary _ ih
  | repetition _ ih => exact ih
  | concat _ _ ih ih' => exact ⟨ih, ih'⟩
  | concatenation _ ih => exact ih
  | alternation _ _ ih ih' => exact ⟨ih, ih'⟩

end PatternAutomata
