import PatternAutomata.Proofs.Postorder

/-!
# Any text in postorder

A text need not be well formed to be rewritten to postorder: it is when it has tokens, its parentheses
match and its operators have a level.

    (∃ y, p.postorder text = .ok y) ↔ ∃ ts, scan text = .ok ts ∧ Nested 0 text ∧
      ∀ o, op o ∈ ts → ∃ level, p.level? o = some level                    (exists_postorder_iff)

Nothing but parentheses is lost then, and operands keep their order (`postorder_rearranges`).

An operator waits together with its level.  Looking the level up again would give the same one
(`reorderAgain_eq`), as the operator has been looked up before it began to wait.
-/

namespace PatternAutomata

open Token

open Waiting hiding op

/-! ## Parentheses of a text -/

/-- Whether the parentheses of a text match, when `depth` of them are open before it: no beginning
closes more of them than were opened, and in the end all are closed. -/
def Nested (depth : Nat) (text : List Char) : Prop :=
  (∀ q, q <+: text → q.count ')' ≤ depth + q.count '(') ∧ text.count ')' = depth + text.count '('

section Nested

variable {depth : Nat} {c : Char} {q text : List Char}

theorem forall_prefix_cons {P : List Char → Prop} :
    (∀ q, q <+: c :: text → P q) ↔ P [] ∧ ∀ q, q <+: text → P (c :: q) := by
  constructor
  · intro h
    exact ⟨h [] List.nil_prefix, fun q hq => h (c :: q) (List.cons_prefix_cons.2 ⟨rfl, hq⟩)⟩
  · rintro ⟨hnil, hcons⟩ q hq
    rcases List.prefix_cons_iff.1 hq with rfl | ⟨q', rfl, hq'⟩
    · exact hnil
    · exact hcons q' hq'

theorem nested_nil : Nested depth [] ↔ depth = 0 := by
  simp [Nested, eq_comm]

theorem nested_open : Nested depth ('(' :: text) ↔ Nested (depth + 1) text := by
  simp [Nested, forall_prefix_cons, Nat.add_right_comm, Nat.add_assoc]

theorem nested_close : Nested (depth + 1) (')' :: text) ↔ Nested depth text := by
  simp [Nested, forall_prefix_cons, Nat.add_right_comm]

theorem not_nested_close : ¬ Nested 0 (')' :: text) := fun h => by
  have := h.1 [')'] (List.cons_prefix_cons.2 ⟨rfl, List.nil_prefix⟩)
  simp at this

theorem nested_cons (hopen : c ≠ '(') (hclose : c ≠ ')') :
    Nested depth (c :: text) ↔ Nested depth text := by
  simp [Nested, forall_prefix_cons, hopen, hclose]

theorem nested_append (hopen : '(' ∉ q) (hclose : ')' ∉ q) :
    Nested depth (q ++ text) ↔ Nested depth text := by
  induction q with
  | nil => rfl
  | cons c q ih =>
    rw [List.mem_cons, not_or] at hopen hclose
    rw [List.cons_append, nested_cons (Ne.symm hopen.1) (Ne.symm hclose.1), ih hopen.2 hclose.2]

end Nested

namespace Token

theorem not_mem_chars {t : Token} (ht : t.Spelled) (hparen : t.isParen = false) {c : Char}
    (hc : c = '(' ∨ c = ')') : c ∉ t.chars := by
  have hsymbol : isSymbol c = false := by rcases hc with rfl | rfl <;> rfl
  cases t with
  | symbol d => simpa [chars, eq_comm] using ne_of_isSymbol ht hsymbol
  | range lo hi =>
    have hlo := ne_of_isSymbol (isSymbol_of_isRange ht).1 hsymbol
    have hhi := ne_of_isSymbol (isSymbol_of_isRange ht).2 hsymbol
    rcases hc with rfl | rfl <;> simp [chars, hlo.symm, hhi.symm]
  | op o => rcases hc with rfl | rfl <;> cases o <;> decide
  | leftParen => cases hparen
  | rightParen => cases hparen

/-- The parentheses of a list are those of its text. -/
theorem balanced_iff_nested {ts : List Token} (hts : ∀ t ∈ ts, t.Spelled) (depth : Nat) :
    Pattern.Balanced depth ts ↔ Nested depth (render ts) := by
  induction ts generalizing depth with
  | nil => exact nested_nil.symm
  | cons t ts ih =>
    obtain ⟨ht, hrest⟩ := List.forall_mem_cons.1 hts
    have hskip : t.isParen = false → (Nested depth (render (t :: ts)) ↔ Nested depth (render ts)) :=
      fun hparen => nested_append (not_mem_chars ht hparen (.inl rfl)) (not_mem_chars ht hparen (.inr rfl))
    cases t with
    | symbol c => rw [Pattern.balanced_symbol, ih hrest, hskip rfl]
    | range lo hi => rw [Pattern.balanced_range, ih hrest, hskip rfl]
    | op o => rw [Pattern.balanced_op, ih hrest, hskip rfl]
    | leftParen =>
      rw [Pattern.balanced_leftParen, ih hrest]
      exact nested_open.symm
    | rightParen =>
      cases depth with
      | zero => exact iff_of_false id not_nested_close
      | succ depth =>
        rw [Pattern.balanced_rightParen, ih hrest]
        exact nested_close.symm

theorem not_mem_render {ts : List Token} (hts : ∀ t ∈ ts, t.Spelled)
    (hparens : ∀ t ∈ ts, t.isParen = false) {c : Char} (hc : c = '(' ∨ c = ')') : c ∉ render ts := by
  intro hmem
  obtain ⟨t, ht, hmem⟩ := List.mem_flatMap.1 hmem
  exact not_mem_chars (hts t ht) (hparens t ht) hc hmem

theorem isParen_composed {t : Token} (h : t.isParen = false) : ∀ u ∈ t.composed, u.isParen = false := by
  cases t with
  | leftParen => cases h
  | rightParen => cases h
  | _ => simp [composed, isParen]

end Token

namespace Precedence

variable {p : Precedence}

theorem exists_postorder_iff {text : List Char} :
    (∃ y, p.postorder text = .ok y) ↔
      ∃ ts, scan text = .ok ts ∧ Nested 0 text ∧
        ∀ o, op o ∈ ts → ∃ level, p.level? o = some level := by
  constructor
  · rintro ⟨y, h⟩
    obtain ⟨ts, out, hts, hout, -⟩ := postorder_eq_ok_iff.1 h
    obtain ⟨hbalanced, hlevels⟩ := exists_reorder_iff.1 ⟨out, hout⟩
    refine ⟨ts, hts, ?_, hlevels⟩
    rw [← render_scan hts]
    exact (balanced_iff_nested (spelled_of_scan hts) 0).1 hbalanced
  · rintro ⟨ts, hts, hnested, hlevels⟩
    rw [← render_scan hts] at hnested
    have hbalanced : Pattern.Balanced (groups []) ts :=
      (balanced_iff_nested (spelled_of_scan hts) 0).2 hnested
    obtain ⟨out, hout⟩ := exists_reorder_iff.2 ⟨hbalanced, hlevels⟩
    exact ⟨render out, postorder_eq_ok_iff.2 ⟨ts, out, hts, hout, rfl⟩⟩

/-- A text is rewritten exactly when it has tokens, its parentheses match and its operators have a level.
The result has no parentheses, the operands of the text in their order, and its operators. -/
theorem postorder_rearranges (p : Precedence) (text : List Char) :
    ((∃ y, p.postorder text = .ok y) ↔
      ∃ ts, scan text = .ok ts ∧ Nested 0 text ∧
        ∀ o, op o ∈ ts → ∃ level, p.level? o = some level) ∧
    ∀ y, p.postorder text = .ok y →
      ('(' ∉ y ∧ ')' ∉ y) ∧
      ∃ ts us : List Token, scan text = .ok ts ∧ scanSingly y = .ok (us.flatMap composed) ∧
        us.filter isOperand = ts.filter isOperand ∧ ∀ o, us.count (op o) = ts.count (op o) := by
  refine ⟨exists_postorder_iff, fun y h => ?_⟩
  obtain ⟨ts, out, hts, hout, rfl⟩ := postorder_eq_ok_iff.1 h
  have hrearranges : Rearranges [] ts out := rearranges_of_reorder hout
  have hsingle := (rearranges_of_reorder hout).single (spelled_of_scan hts)
  obtain ⟨us, rfl, hoperands, hperm⟩ := hrearranges
  have hparens : ∀ t ∈ us.flatMap composed, t.isParen = false := by
    intro t ht
    obtain ⟨u, hu, ht⟩ := List.mem_flatMap.1 ht
    have hkept := (List.mem_filter.1 (hperm.mem_iff.1 hu)).2
    exact isParen_composed (by simpa using hkept) t ht
  have hspelled := fun t ht => (hsingle t ht).spelled
  refine ⟨⟨not_mem_render hspelled hparens (.inl rfl), not_mem_render hspelled hparens (.inr rfl)⟩,
    ts, us, hts, scanSingly_render hsingle, hoperands, fun o => ?_⟩
  rw [hperm.count_eq, List.nil_append, withoutParens, List.count_filter rfl]

/-- A text with more operators than it has operands for. -/
theorem postorder_rearranges_standard :
    standard.postorder ['*', '(', 'a', '-', 'c', ')', '(', ')', '|'] = .ok ['a', 'c', '-', '*', '|'] ∧
      ∃ ts us : List Token, scan ['*', '(', 'a', '-', 'c', ')', '(', ')', '|'] = .ok ts ∧
        scanSingly ['a', 'c', '-', '*', '|'] = .ok (us.flatMap composed) ∧
        us.filter isOperand = ts.filter isOperand ∧ ∀ o, us.count (op o) = ts.count (op o) := by
  have hout : standard.postorder ['*', '(', 'a', '-', 'c', ')', '(', ')', '|'] =
      .ok ['a', 'c', '-', '*', '|'] := by rfl
  exact ⟨hout, ((postorder_rearranges standard _).2 _ hout).2⟩

/-! ## Levels that are looked up again -/

/-- The operators that one of this level releases, when the levels of those that wait are looked up. -/
def releaseAgain (p : Precedence) (level : Nat) :
    List Waiting → Except PatternError (List Token × List Waiting)
  | .op o l :: stack =>
    match p.level? o with
    | none => .error (.unknownOperator o)
    | some l' =>
      if l' ≤ level then do
        let (os, rest) ← p.releaseAgain level stack
        .ok (.op o :: os, rest)
      else .ok ([], .op o l :: stack)
  | stack => .ok ([], stack)

/-- The tokens of an explicit pattern in postorder, when the level of an operator that waits is looked
up whenever it is compared. -/
def reorderAgain (p : Precedence) : List Waiting → List Token → Except PatternError (List Token)
  | stack, [] => releaseAll stack
  | stack, .symbol c :: rest => do
    let out ← p.reorderAgain stack rest
    .ok (.symbol c :: out)
  | stack, .range lo hi :: rest => do
    let out ← p.reorderAgain stack rest
    .ok (.symbol lo :: .symbol hi :: .op .range :: out)
  | stack, .leftParen :: rest => p.reorderAgain (.group :: stack) rest
  | stack, .rightParen :: rest => do
    let (os, stack') ← closeGroup stack
    let out ← p.reorderAgain stack' rest
    .ok (os ++ out)
  | stack, .op o :: rest =>
    match p.level? o with
    | none => .error (.unknownOperator o)
    | some level => do
      let (os, stack') ← p.releaseAgain level stack
      let out ← p.reorderAgain (.op o level :: stack') rest
      .ok (os ++ out)

/-- Whether operators wait with the levels that they have. -/
def Leveled (p : Precedence) (stack : List Waiting) : Prop :=
  ∀ o l, Waiting.op o l ∈ stack → p.level? o = some l

variable {stack : List Waiting} {ts : List Token} {level : Nat}

theorem Leveled.cons {o : Operator} (ho : p.level? o = some level) (h : p.Leveled stack) :
    p.Leveled (.op o level :: stack) := fun o' l hm => by
  rcases List.mem_cons.1 hm with e | hm
  · cases e
    exact ho
  · exact h o' l hm

theorem Leveled.group (h : p.Leveled stack) : p.Leveled (.group :: stack) := fun o l hm => by
  rcases List.mem_cons.1 hm with e | hm
  · cases e
  · exact h o l hm

theorem Leveled.mono {s t : List Waiting} (h : p.Leveled t) (hst : s ⊆ t) : p.Leveled s :=
  fun o l hm => h o l (hst hm)

/-- Looking up the level of an operator that waits never fails. -/
theorem releaseAgain_eq (h : p.Leveled stack) (level : Nat) :
    p.releaseAgain level stack = .ok (release level stack) := by
  induction stack with
  | nil => rfl
  | cons w stack ih =>
    cases w with
    | group => rfl
    | op o l =>
      rw [releaseAgain, h o l List.mem_cons_self, release]
      dsimp only
      rw [ih (h.mono (List.subset_cons_self _ _))]
      split <;> rfl

theorem reorderAgain_eq (h : p.Leveled stack) : p.reorderAgain stack ts = p.reorder stack ts := by
  induction ts generalizing stack with
  | nil => rfl
  | cons t ts ih =>
    cases t with
    | symbol c => rw [reorderAgain, reorder, ih h]
    | range lo hi => rw [reorderAgain, reorder, ih h]
    | leftParen => rw [reorderAgain, reorder, ih h.group]
    | rightParen =>
      rw [reorderAgain, reorder]
      cases hc : closeGroup stack with
      | error e => rfl
      | ok r =>
        obtain ⟨os, rest⟩ := r
        show (p.reorderAgain rest ts >>= fun out => .ok (os ++ out)) = _
        rw [ih (h.mono (closeGroup_subset hc))]
        rfl
    | op o =>
      rw [reorderAgain, reorder]
      cases ho : p.level? o with
      | none => rfl
      | some level =>
        dsimp only
        rw [releaseAgain_eq h level]
        show (p.reorderAgain (.op o level :: (release level stack).2) ts >>= fun out => _) = _
        rw [ih ((h.mono (release_subset level stack)).cons ho)]

end Precedence

end PatternAutomata
