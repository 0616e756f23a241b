import PatternAutomata.Proofs.Lexeme
import PatternAutomata.Proofs.Phrase

/-!
# The grammar and the explicit form

A phrase of characters is written as lexemes whose explicit form is a phrase of tokens with the same
expression (`exists_phrase_of_reads`).  In the other direction lexemes are parsed from left to right:
where an operand is expected, the text so far waits for a repetition (`Opened`), and behind an operand
it ends with one (`Stands`):

    the explicit form of ls alternates and is balanced → Reads .alternation (text ls) e
                                                                  (exists_reads_of_alternates)
-/

namespace PatternAutomata

open Token Pattern

/-! ## From characters to tokens -/

/-- Whether the explicit form of some tokens is known, wherever they stand. -/
def Joins (ts js : List Token) : Prop :=
  ∀ (after : Bool) (us : List Token),
    joined after (ts ++ us) = (if after then [op .concat] else []) ++ js ++ joined true us

namespace Joins

variable {ts us js ks : List Token}

theorem operand {t : Token} (h : t.isOperand = true) : Joins [t] [t] := by
  intro after us
  have hb : t.begins = true := by
    rw [begins_eq, h]
    rfl
  have he : t.ends = true := by
    rw [ends_eq, h, Bool.or_true]
  rw [List.singleton_append, joined, lead, hb, he, Bool.and_true, List.append_assoc]
  rfl

theorem group (h : Joins ts js) :
    Joins (leftParen :: ts ++ [rightParen]) (leftParen :: js ++ [rightParen]) := by
  intro after us
  have hin : joined false (ts ++ rightParen :: us) = js ++ rightParen :: joined true us := h false _
  rw [List.cons_append, List.cons_append, List.append_assoc, List.singleton_append, joined]
  show lead after leftParen ++ leftParen :: joined false (ts ++ rightParen :: us) = _
  rw [hin]
  cases after <;> simp [lead, begins]

theorem unary {o : Operator} (ho : o.isUnary = true) (h : Joins ts js) :
    Joins (ts ++ [op o]) (js ++ [op o]) := by
  intro after us
  rw [List.append_assoc, h, List.singleton_append, joined, ends_op, ho]
  simp [lead]

theorem follow (h : Joins ts js) (h' : Joins us ks) :
    Joins (ts ++ us) (js ++ op .concat :: ks) := by
  intro after vs
  rw [List.append_assoc, h, h']
  simp

theorem binary {o : Operator} (ho : o.isUnary = false) (h : Joins ts js) (h' : Joins us ks) :
    Joins (ts ++ op o :: us) (js ++ op o :: ks) := by
  intro after vs
  rw [List.append_assoc, h, List.cons_append, joined, ends_op, ho, h']
  simp [lead]

end Joins

/-- Whether a phrase of characters is written as lexemes that expand to a phrase of tokens. -/
def Written (k : Rank) (p : List Char) (e : Expr) : Prop :=
  ∃ ls js, (∀ l ∈ ls, Lexeme.Proper l) ∧ Lexeme.text ls = p ∧ Joins (Lexeme.expansion ls) js ∧
    Phrase k js e

theorem alternatives_append {items : List Token} (h : items ≠ []) (t : Token) :
    alternatives (items ++ [t]) = alternatives items ++ op .alternation :: [t] := by
  induction items with
  | nil => exact absurd rfl h
  | cons u items ih =>
    cases items with
    | nil => rfl
    | cons v items =>
      have hi := ih (by simp)
      simp only [List.cons_append] at hi ⊢
      rw [alternatives, hi, alternatives]
      rfl

theorem exists_token_of_item {p : List Char} {e : Expr} (h : Item p e) :
    ∃ t : Token, t.Proper ∧ t.isOperand = true ∧ t.chars = p ∧ Phrase .atom [t] e := by
  cases h with
  | symbol hc => exact ⟨symbol _, hc, rfl, rfl, .symbol hc⟩
  | range hr => exact ⟨range _ _, hr, rfl, rfl, .range hr⟩

theorem exists_items {p : List Char} {e : Expr} (h : Items p e) :
    ∃ items, (Lexeme.items items).Proper ∧ render items = p ∧
      Joins (alternatives items) (alternatives items) ∧
      Phrase .alternation (alternatives items) e := by
  induction h with
  | one hi =>
    obtain ⟨t, ht, hop, rfl, hp⟩ := exists_token_of_item hi
    exact ⟨[t], ⟨by simp, by simpa using ⟨ht, hop⟩⟩, by simp, .operand hop,
      .concatenation (.repetition (.atom hp))⟩
  | more _ hi ih =>
    obtain ⟨items, ⟨hne, hitems⟩, rfl, hj, hps⟩ := ih
    obtain ⟨t, ht, hop, rfl, hp⟩ := exists_token_of_item hi
    refine ⟨items ++ [t], ⟨by simp, fun u hu => ?_⟩, by simp, ?_, ?_⟩
    · rcases List.mem_append.1 hu with hu | hu
      · exact hitems u hu
      · rw [List.mem_singleton.1 hu]
        exact ⟨ht, hop⟩
    · rw [alternatives_append hne]
      exact hj.binary rfl (.operand hop)
    · rw [alternatives_append hne]
      exact hps.alternation (.repetition (.atom hp))

theorem phrase_wildcard : Phrase .alternation (alternatives wildcard) .wildcard :=
  .alternation (.alternation (.concatenation (.repetition (.atom (.range (by decide)))))
    (.repetition (.atom (.range (by decide))))) (.repetition (.atom (.range (by decide))))

theorem joins_alternatives_wildcard : Joins (alternatives wildcard) (alternatives wildcard) :=
  ((Joins.operand (t := range 'a' 'z') rfl).binary (o := .alternation) rfl
    (.operand (t := range 'A' 'Z') rfl)).binary (o := .alternation) rfl
    (.operand (t := range '0' '9') rfl)

theorem written_single {t : Token} {k : Rank} {e : Expr} (ht : t.Proper) (hop : t.isOperand = true)
    (h : Phrase k [t] e) : Written k t.chars e :=
  ⟨[.single t], [t], fun _ hl => List.mem_singleton.1 hl ▸ ht, by simp [Lexeme.chars],
    .operand hop, h⟩

theorem Written.binary {k k' k'' : Rank} {p q : List Char} {e f g : Expr} {o : Operator}
    (ho : o.isUnary = false) (hr : o ≠ .range) (h : Written k p e) (h' : Written k' q f)
    (hg : ∀ ts us, Phrase k ts e → Phrase k' us f → Phrase k'' (ts ++ op o :: us) g) :
    Written k'' (p ++ o.symbol :: q) g := by
  obtain ⟨ls, js, hls, rfl, hj, hp⟩ := h
  obtain ⟨ms, ks, hms, rfl, hj', hp'⟩ := h'
  refine ⟨ls ++ .single (op o) :: ms, _, fun l hl => ?_, by simp [Lexeme.chars, Token.chars], ?_,
    hg _ _ hp hp'⟩
  · rcases List.mem_append.1 hl with hl | hl
    · exact hls l hl
    · rcases List.mem_cons.1 hl with rfl | hl
      · exact hr
      · exact hms l hl
  · rw [Lexeme.expansion_append, Lexeme.expansion_cons]
    exact hj.binary ho hj'

theorem Written.unary {p : List Char} {e : Expr} {o : Operator} (ho : o.isUnary = true)
    (h : Written .repetition p e) : Written .repetition (p ++ [o.symbol]) (.unary o e) := by
  obtain ⟨ls, js, hls, rfl, hj, hp⟩ := h
  have hr : o ≠ .range := by
    rintro rfl
    cases ho
  refine ⟨ls ++ [.single (op o)], _, fun l hl => ?_, by simp [Lexeme.chars, Token.chars], ?_,
    hp.unary ho⟩
  · rcases List.mem_append.1 hl with hl | hl
    · exact hls l hl
    · rw [List.mem_singleton.1 hl]
      exact hr
  · rw [Lexeme.expansion_append]
    exact hj.unary ho

theorem Written.lift {k k' : Rank} {p : List Char} {e : Expr} (h : Written k p e)
    (hk : ∀ ts, Phrase k ts e → Phrase k' ts e) : Written k' p e := by
  obtain ⟨ls, js, hls, hp, hj, hjs⟩ := h
  exact ⟨ls, js, hls, hp, hj, hk js hjs⟩

theorem exists_phrase_of_reads {k : Rank} {p : List Char} {e : Expr} (h : Reads k p e) :
    Written k p e := by
  induction h with
  | item hi =>
    obtain ⟨t, ht, hop, rfl, hp⟩ := exists_token_of_item hi
    exact written_single ht hop hp
  | wildcard =>
    exact ⟨[.wildcard], grouped wildcard, by simp [Lexeme.Proper], rfl,
      joins_alternatives_wildcard.group, .group phrase_wildcard⟩
  | items hi =>
    obtain ⟨items, hproper, rfl, hj, hp⟩ := exists_items hi
    refine ⟨[.items items], grouped items, by simpa using hproper, by simp [Lexeme.chars], ?_,
      .group hp⟩
    rw [Lexeme.expansion_cons, Lexeme.expansion_nil, List.append_nil]
    exact hj.group
  | group _ ih =>
    obtain ⟨ls, js, hls, rfl, hj, hp⟩ := ih
    refine ⟨.single leftParen :: ls ++ [.single rightParen], _, fun l hl => ?_,
      by simp [Lexeme.chars, Token.chars], ?_, .group hp⟩
    · rcases List.mem_append.1 hl with hl | hl
      · rcases List.mem_cons.1 hl with rfl | hl
        · trivial
        · exact hls l hl
      · rw [List.mem_singleton.1 hl]
        trivial
    · rw [Lexeme.expansion_append, Lexeme.expansion_cons]
      exact hj.group
  | atom _ ih => exact ih.lift fun _ => .atom
  | star _ ih => exact ih.unary (o := .star) rfl
  | plus _ ih => exact ih.unary (o := .plus) rfl
  | optional _ ih => exact ih.unary (o := .optional) rfl
  | repetition _ ih => exact ih.lift fun _ => .repetition
  | follow _ _ ih ih' =>
    obtain ⟨ls, js, hls, rfl, hj, hp⟩ := ih
    obtain ⟨ms, ks, hms, rfl, hj', hp'⟩ := ih'
    refine ⟨ls ++ ms, _, fun l hl => ?_, by simp, ?_, .concat hp hp'⟩
    · rcases List.mem_append.1 hl with hl | hl
      · exact hls l hl
      · exact hms l hl
    · rw [Lexeme.expansion_append]
      exact hj.follow hj'
  | concat _ _ ih ih' =>
    exact ih.binary (o := .concat) rfl (by decide) ih' fun _ _ => .concat
  | concatenation _ ih => exact ih.lift fun _ => .concatenation
  | alternation _ _ ih ih' =>
    exact ih.binary (o := .alternation) rfl (by decide) ih' fun _ _ => .alternation

/-! ## From lexemes to characters -/

/-- Whether a repetition may follow, to complete a concatenation. -/
def AwaitsRepetition (p : List Char) : Prop :=
  p = [] ∨ ∃ q e, Reads .concatenation q e ∧ (p = q ∨ p = q ++ ['&'])

/-- Whether a concatenation may follow, to complete an alternation. -/
def AwaitsConcatenation (p : List Char) : Prop :=
  p = [] ∨ ∃ q e, Reads .alternation q e ∧ p = q ++ ['|']

theorem AwaitsRepetition.exists_reads {p q : List Char} {f : Expr} (h : AwaitsRepetition p)
    (hq : Reads .repetition q f) : ∃ e, Reads .concatenation (p ++ q) e := by
  rcases h with rfl | ⟨r, e, hr, rfl | rfl⟩
  · exact ⟨f, .repetition hq⟩
  · exact ⟨_, .follow hr hq⟩
  · rw [List.append_assoc]
    exact ⟨_, .concat hr hq⟩

theorem AwaitsConcatenation.exists_reads {p q : List Char} {f : Expr} (h : AwaitsConcatenation p)
    (hq : Reads .concatenation q f) : ∃ e, Reads .alternation (p ++ q) e := by
  rcases h with rfl | ⟨r, e, hr, rfl⟩
  · exact ⟨f, .concatenation hq⟩
  · rw [List.append_assoc]
    exact ⟨_, .alternation hr hq⟩

/-- A text that waits for a repetition, with a number of groups open around its end. -/
inductive Opened : Nat → List Char → Prop where
  | outer {p q : List Char} : AwaitsConcatenation p → AwaitsRepetition q → Opened 0 (p ++ q)
  | inner {depth : Nat} {w p q : List Char} : Opened depth w → AwaitsConcatenation p →
    AwaitsRepetition q → Opened (depth + 1) (w ++ '(' :: (p ++ q))

/-- The innermost phrase may be any other that waits. -/
theorem Opened.innermost {depth : Nat} {w : List Char} (h : Opened depth w) :
    ∃ v p q, w = v ++ (p ++ q) ∧ AwaitsConcatenation p ∧ AwaitsRepetition q ∧
      ∀ p' q', AwaitsConcatenation p' → AwaitsRepetition q' → Opened depth (v ++ (p' ++ q')) := by
  cases h with
  | @outer p q hp hq => exact ⟨[], p, q, rfl, hp, hq, fun _ _ => .outer⟩
  | @inner _ w p q hw hp hq =>
    refine ⟨w ++ ['('], p, q, by simp, hp, hq, fun p' q' hp' hq' => ?_⟩
    have := Opened.inner hw hp' hq'
    simpa using this

/-- Behind a repetition another may follow, directly or behind a sign. -/
theorem Opened.follow {depth : Nat} {w r : List Char} {f : Expr} (h : Opened depth w)
    (hr : Reads .repetition r f) :
    Opened depth (w ++ r) ∧ Opened depth (w ++ r ++ ['&']) ∧ Opened depth (w ++ r ++ ['|']) := by
  obtain ⟨v, p, q, rfl, hp, hq, hv⟩ := h.innermost
  obtain ⟨e, he⟩ := hq.exists_reads hr
  obtain ⟨g, hg⟩ := hp.exists_reads he
  refine ⟨?_, ?_, ?_⟩
  · simpa using hv p (q ++ r) hp (.inr ⟨_, e, he, .inl rfl⟩)
  · simpa using hv p (q ++ r ++ ['&']) hp (.inr ⟨_, e, he, .inr rfl⟩)
  · simpa using hv (p ++ (q ++ r) ++ ['|']) [] (.inr ⟨_, g, hg, rfl⟩) (.inl rfl)

theorem Opened.leftParen {depth : Nat} {w : List Char} (h : Opened depth w) :
    Opened (depth + 1) (w ++ ['(']) := .inner h (.inl rfl) (.inl rfl)

/-- How the text before a place ends: with a repetition behind an operand, and else waiting for
one. -/
def Stands (after : Bool) (depth : Nat) (w : List Char) : Prop :=
  if after then ∃ v r f, w = v ++ r ∧ Opened depth v ∧ Reads .repetition r f else Opened depth w

namespace Stands

variable {after : Bool} {depth : Nat} {w : List Char}

theorem opened (h : Stands after depth w) : Opened depth w := by
  cases after with
  | false => exact h
  | true =>
    obtain ⟨v, r, f, rfl, hv, hr⟩ := h
    exact (hv.follow hr).1

theorem atom (h : Opened depth w) {r : List Char} {f : Expr} (hr : Reads .atom r f) :
    Stands true depth (w ++ r) := ⟨w, r, f, rfl, h, .atom hr⟩

theorem rightParen (h : Stands true (depth + 1) w) : Stands true depth (w ++ [')']) := by
  obtain ⟨v, r, f, rfl, hv, hr⟩ := h
  cases hv with
  | @inner _ v p q hv hp hq =>
    obtain ⟨e, he⟩ := hq.exists_reads hr
    obtain ⟨g, hg⟩ := hp.exists_reads he
    have hs := atom hv (.group hg)
    simpa using hs

theorem unary (h : Stands true depth w) {o : Operator} (ho : o.isUnary = true) :
    Stands true depth (w ++ [o.symbol]) := by
  obtain ⟨v, r, f, rfl, hv, hr⟩ := h
  have hreads : ∃ g, Reads .repetition (r ++ [o.symbol]) g := by
    cases o with
    | star => exact ⟨_, .star hr⟩
    | plus => exact ⟨_, .plus hr⟩
    | optional => exact ⟨_, .optional hr⟩
    | concat => cases ho
    | alternation => cases ho
    | range => cases ho
  obtain ⟨g, hg⟩ := hreads
  exact ⟨v, r ++ [o.symbol], g, by simp, hv, hg⟩

theorem binary (h : Stands true depth w) {o : Operator} (ho : o.isUnary = false)
    (hr : o ≠ .range) : Opened depth (w ++ [o.symbol]) := by
  obtain ⟨v, r, f, rfl, hv, hf⟩ := h
  have hfollow := hv.follow hf
  cases o with
  | star => cases ho
  | plus => cases ho
  | optional => cases ho
  | concat => exact hfollow.2.1
  | alternation => exact hfollow.2.2
  | range => exact absurd rfl hr

end Stands

theorem exists_items_of_proper {items : List Token} (h : (Lexeme.items items).Proper) :
    ∃ e, Items (render items) e := by
  obtain ⟨hne, hitems⟩ := h
  have hitem : ∀ t ∈ items, ∃ f, Item t.chars f := by
    intro t ht
    obtain ⟨hp, hop⟩ := hitems t ht
    cases t with
    | symbol c => exact ⟨_, .symbol hp⟩
    | range lo hi => exact ⟨_, .range hp⟩
    | op o => cases hop
    | leftParen => cases hop
    | rightParen => cases hop
  induction items using List.reverseRecOn with
  | nil => exact absurd rfl hne
  | append_singleton items t ih =>
    obtain ⟨f, hf⟩ := hitem t (by simp)
    rw [render_append, render_cons, render_nil, List.append_nil]
    by_cases hnil : items = []
    · subst hnil
      exact ⟨f, .one hf⟩
    · obtain ⟨e, he⟩ := ih hnil (fun u hu => hitems u (by simp [hu])) fun u hu =>
        hitem u (by simp [hu])
      exact ⟨_, .more he hf⟩

theorem render_injective {ts us : List Token} (ht : ∀ t ∈ ts, t.Proper)
    (hu : ∀ t ∈ us, t.Proper) (h : render ts = render us) : ts = us := by
  have hscan := scan_render ht
  rw [h, scan_render hu] at hscan
  exact (Except.ok.inj hscan).symm

/-- Lexemes that no operator and no parenthesis is: their tokens are an atom. -/
theorem exists_atom {l : Lexeme} (hl : l.Proper) (hop : ∀ t, l = .single t → t.isOperand = true) :
    ∃ e, Reads .atom l.chars e ∧ Joins l.tokens l.tokens ∧ Phrase .atom l.tokens e := by
  cases l with
  | single t =>
    have hop := hop t rfl
    cases t with
    | symbol c => exact ⟨_, .item (.symbol hl), .operand rfl, .symbol hl⟩
    | range lo hi => exact ⟨_, .item (.range hl), .operand rfl, .range hl⟩
    | op o => cases hop
    | leftParen => cases hop
    | rightParen => cases hop
  | wildcard => exact ⟨_, .wildcard, joins_alternatives_wildcard.group, .group phrase_wildcard⟩
  | items items =>
    obtain ⟨e, he⟩ := exists_items_of_proper hl
    obtain ⟨items', hl', hr, hj, hp⟩ := exists_items he
    cases render_injective (fun t ht => (hl'.2 t ht).1) (fun t ht => (hl.2 t ht).1) hr
    exact ⟨e, .items he, hj.group, .group hp⟩

/-- An atom in front leaves an operand behind and the parentheses as they are. -/
theorem joined_append_iff {ts js : List Token} {k : Rank} {e : Expr} (hj : Joins ts js)
    (h : Phrase k js e) (us : List Token) {after : Bool} {depth : Nat} :
    (Alternates after (joined after (ts ++ us)) ↔ Alternates true (joined true us)) ∧
      (Balanced depth (joined after (ts ++ us)) ↔ Balanced depth (joined true us)) := by
  rw [hj]
  cases after with
  | false =>
    simp only [Bool.false_eq_true, if_false, List.nil_append]
    exact ⟨h.formed.alternates_append _, h.formed.balanced_append _ _⟩
  | true =>
    simp only [if_true, List.cons_append, List.nil_append, balanced_op]
    refine ⟨?_, h.formed.balanced_append _ _⟩
    rw [Alternates, ends_op, isUnary_concat, h.formed.alternates_append, begins_op]
    simp

theorem balanced_joined_cons {after : Bool} {depth : Nat} {t : Token} {ts : List Token} :
    Balanced depth (joined after (t :: ts)) ↔ Balanced depth (t :: joined t.ends ts) := by
  rw [joined, balanced_lead_append]

/-- Lexemes that alternate are read from left to right. -/
theorem exists_reads_of_stands {ls : List Lexeme} (hls : ∀ l ∈ ls, l.Proper) {after : Bool}
    {depth : Nat} {w : List Char} (hw : Stands after depth w)
    (ha : Alternates after (joined after (Lexeme.expansion ls)))
    (hb : Balanced depth (joined after (Lexeme.expansion ls))) :
    ∃ e, Reads .alternation (w ++ Lexeme.text ls) e := by
  induction ls generalizing after depth w with
  | nil =>
    cases ha
    cases hb
    obtain ⟨v, r, f, rfl, hv, hr⟩ := hw
    cases hv with
    | outer hp hq =>
      obtain ⟨e, he⟩ := hq.exists_reads hr
      obtain ⟨g, hg⟩ := hp.exists_reads he
      exact ⟨g, by simpa using hg⟩
  | cons l ls ih =>
    have hl := hls l List.mem_cons_self
    have ih := @ih fun m hm => hls m (List.mem_cons_of_mem _ hm)
    rw [Lexeme.text_cons, ← List.append_assoc]
    by_cases hop : ∀ t, l = .single t → t.isOperand = true
    · obtain ⟨f, hf, hj, hp⟩ := exists_atom hl hop
      obtain ⟨ha', hb'⟩ := joined_append_iff hj hp (Lexeme.expansion ls)
      exact ih (.atom hw.opened hf) (ha'.1 ha) (hb'.1 hb)
    · simp only [not_forall] at hop
      obtain ⟨t, rfl, hop⟩ := hop
      obtain ⟨hafter, hrest⟩ : (t.begins = true ∨ after = true) ∧
          Alternates t.ends (joined t.ends (Lexeme.expansion ls)) := alternates_joined_cons.1 ha
      have hpar : Balanced depth (t :: joined t.ends (Lexeme.expansion ls)) :=
        balanced_joined_cons.1 hb
      cases t with
      | symbol c => exact absurd rfl hop
      | range lo hi => exact absurd rfl hop
      | leftParen =>
        have hopen : Stands false (depth + 1) (w ++ ['(']) := hw.opened.leftParen
        exact ih hopen hrest ((balanced_leftParen _ _).1 hpar)
      | rightParen =>
        have hafter : after = true := by simpa [begins] using hafter
        subst hafter
        cases depth with
        | zero => exact absurd hpar id
        | succ depth => exact ih hw.rightParen hrest hpar
      | op o =>
        have hafter : after = true := by simpa using hafter
        subst hafter
        rw [balanced_op] at hpar
        rw [ends_op] at hrest hpar
        cases ho : o.isUnary with
        | true =>
          rw [ho] at hrest hpar
          exact ih (hw.unary ho) hrest hpar
        | false =>
          rw [ho] at hrest hpar
          have hbin : Stands false depth (w ++ [o.symbol]) := hw.binary ho hl
          exact ih hbin hrest hpar

/-! ## The explicit form of lexemes -/

/-- The tokens of the explicit form of some lexemes. -/
def Lexeme.explicit (ls : List Lexeme) : List Token := joined false (expansion ls)

theorem Lexeme.proper_explicit {ls : List Lexeme} (h : ∀ l ∈ ls, l.Proper) :
    ∀ t ∈ explicit ls, t.Proper := proper_joined (proper_expansion h) false

/-- The lexemes of a phrase, with the explicit form. -/
theorem exists_lexemes_of_reads {text : List Char} {e : Expr} (h : Reads .alternation text e) :
    ∃ ls, (∀ l ∈ ls, Lexeme.Proper l) ∧ Lexeme.text ls = text ∧
      Phrase .alternation (Lexeme.explicit ls) e := by
  obtain ⟨ls, js, hls, htext, hj, hp⟩ := exists_phrase_of_reads h
  refine ⟨ls, hls, htext, ?_⟩
  have hexplicit := hj false []
  rw [List.append_nil] at hexplicit
  rw [Lexeme.explicit, hexplicit]
  simpa [joined] using hp

/-- A pattern whose explicit form alternates and is balanced is a phrase. -/
theorem exists_reads_of_alternates {ls : List Lexeme} (hls : ∀ l ∈ ls, l.Proper)
    (ha : Alternates false (Lexeme.explicit ls)) (hb : Balanced 0 (Lexeme.explicit ls)) :
    ∃ e, Reads .alternation (Lexeme.text ls) e := by
  have hw : Stands false 0 [] := Opened.outer (p := []) (q := []) (.inl rfl) (.inl rfl)
  exact exists_reads_of_stands hls hw ha hb

end PatternAutomata
