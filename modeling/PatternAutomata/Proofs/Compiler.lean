import PatternAutomata.Compiler
import PatternAutomata.Proofs.Determinize
import PatternAutomata.Proofs.Minimize
import PatternAutomata.Proofs.Parse
import PatternAutomata.Proofs.StandardOrder
import PatternAutomata.Proofs.Thompson

/-!
# What the compiler accepts, and what its automata accept

A pattern that compiles is a text of lexemes whose explicit form can be reordered and evaluated
(`Assembles`).  The count of operands decides which these are: at most one fragment is left, and the
number of fragments is the net of the explicit form.

    one left    the explicit form alternates and is balanced, so the pattern is a phrase
    none left   only parentheses were read, so the pattern is nested parentheses around nothing

With a limit and without one the stages are the same, up to the determinization
(`Compiler.stages_eq`).  The automata keep the language of the pattern from stage to stage:

    stages text succeeds ↔ text = parens k ∨ Reads .alternation text e     (exists_stages_iff_reads)
    compile text = .ok d → Denotes text L → (d.accepts w ↔ w ∈ L)              (compile_accepts_iff)
-/

namespace PatternAutomata

open Token Pattern Computability

/-! ## From a pattern to an automaton -/

theorem Pattern.explicit_eq_ok_iff {text x : List Char} :
    explicit text = .ok x ↔
      ∃ ls, (∀ l ∈ ls, Lexeme.Proper l) ∧ Lexeme.text ls = text ∧ render (Lexeme.explicit ls) = x := by
  unfold explicit
  constructor
  · intro h
    obtain ⟨-, -, h⟩ := bind_eq_ok_iff.1 h
    obtain ⟨ts, hts, h⟩ := bind_eq_ok_iff.1 h
    obtain ⟨ls, hls, htext, rfl⟩ := expand_eq_ok_iff.1 hts
    cases h
    rw [withConcat_eq (Lexeme.proper_expansion hls)]
    exact ⟨ls, hls, htext, rfl⟩
  · rintro ⟨ls, hls, rfl, rfl⟩
    rw [checkAlphabet_text hls, expand_text hls]
    show Except.ok (render (withConcat (Lexeme.expansion ls))) = _
    rw [withConcat_eq (Lexeme.proper_expansion hls)]
    rfl

theorem Automaton.ofPostorder_render {ts : List Token} (h : ∀ t ∈ ts, t.Single) {a : Automaton} :
    ofPostorder (render ts) = .ok a ↔
      ∃ b, ts.foldlM Assembly.take {} = .ok b ∧ b.finish = .ok a := by
  unfold ofPostorder
  rw [scanSingly_render h]
  show (ts.foldlM Assembly.take {} >>= fun b => b.finish) = _ ↔ _
  exact bind_eq_ok_iff

/-- Whether a pattern is a text of lexemes whose explicit form is evaluated to an automaton. -/
def Assembles (p : Precedence) (text : List Char) (nfa : Automaton) : Prop :=
  ∃ ls out b, (∀ l ∈ ls, Lexeme.Proper l) ∧ Lexeme.text ls = text ∧
    p.reorder [] (Lexeme.explicit ls) = .ok out ∧ out.foldlM Assembly.take {} = .ok b ∧
    b.finish = .ok nfa

theorem assembles_iff {p : Precedence} {text : List Char} {nfa : Automaton} :
    Assembles p text nfa ↔ ∃ x y, explicit text = .ok x ∧ p.postorder x = .ok y ∧
      Automaton.ofPostorder y = .ok nfa := by
  constructor
  · rintro ⟨ls, out, b, hls, htext, hout, hb, hnfa⟩
    have hproper := Lexeme.proper_explicit hls
    refine ⟨_, _, Pattern.explicit_eq_ok_iff.2 ⟨ls, hls, htext, rfl⟩,
      (Precedence.postorder_render hproper).2 ⟨out, hout, rfl⟩, ?_⟩
    exact (Automaton.ofPostorder_render (Precedence.single_reorder hproper hout)).2 ⟨b, hb, hnfa⟩
  · rintro ⟨x, y, hx, hy, hnfa⟩
    obtain ⟨ls, hls, htext, rfl⟩ := Pattern.explicit_eq_ok_iff.1 hx
    have hproper := Lexeme.proper_explicit hls
    obtain ⟨out, hout, rfl⟩ := (Precedence.postorder_render hproper).1 hy
    have hsingle := Precedence.single_reorder hproper hout
    obtain ⟨b, hb, hfinish⟩ := (Automaton.ofPostorder_render hsingle).1 hnfa
    exact ⟨ls, out, b, hls, htext, hout, hb, hfinish⟩

theorem Assembles.spec {p : Precedence} {text : List Char} {nfa : Automaton}
    (h : Assembles p text nfa) : nfa.WellFormed ∧ nfa.Forward ∧ ∃ s, nfa.initial = some s := by
  obtain ⟨ls, out, b, hls, -, hout, hb, hnfa⟩ := h
  have hsingle := Precedence.single_reorder (Lexeme.proper_explicit hls) hout
  exact (Assembly.finish_spec (Assembly.sound_empty.foldlM_take hsingle hb) hnfa).2

/-- What the subset construction gives can be minimized. -/
theorem Automaton.exists_minimize_determinize {a : Automaton} {s : State} (hs : a.initial = some s) :
    ∃ m, a.determinize.minimize = .ok m ∧ ∀ w, m.accepts w = a.determinize.accepts w :=
  minimize_accepts (wellFormed_determinize a) (isDeterministic_determinize a) (forward_determinize a)
    (initial_determinize hs)

/-! ## The stages -/

namespace Compiler

variable {p : Precedence} {text : List Char}

/-- Determinizes, under the limit if there is one. -/
def determinize (c : Compiler) (a : Automaton) : Except TooComplex Automaton :=
  match c.limit with
  | none => .ok a.determinize
  | some limit => a.determinizeWithin limit

/-- The stages that know nothing of a limit. -/
def front (p : Precedence) (text : List Char) :
    Except PatternError (List Char × List Char × Automaton) := do
  let explicit ← Pattern.explicit text
  let postorder ← p.postorder explicit
  let nfa ← Automaton.ofPostorder postorder
  .ok (explicit, postorder, nfa)

/-- The stages behind them. -/
def back (c : Compiler) : List Char × List Char × Automaton → Except Failure Stages
  | (explicit, postorder, nfa) => do
    let dfa ← (c.determinize nfa).mapError .tooComplex
    conclude explicit postorder nfa dfa

/-- With a limit and without one the stages are the same, up to the determinization. -/
theorem stages_eq (c : Compiler) (text : List Char) :
    c.stages text = (front c.precedence text).mapError .pattern >>= c.back := by
  obtain ⟨p, limit⟩ := c
  cases limit with
  | none =>
    unfold stages unbounded front
    simp only [mapError_bind, bind_assoc]
    rfl
  | some limit =>
    unfold stages bounded front
    simp only [mapError_bind, bind_assoc]
    rfl

theorem front_eq_ok_iff {x y : List Char} {nfa : Automaton} :
    front p text = .ok (x, y, nfa) ↔
      explicit text = .ok x ∧ p.postorder x = .ok y ∧ Automaton.ofPostorder y = .ok nfa := by
  constructor
  · intro h
    obtain ⟨x, hx, h⟩ := bind_eq_ok_iff.1 h
    obtain ⟨y, hy, h⟩ := bind_eq_ok_iff.1 h
    obtain ⟨nfa, hnfa, h⟩ := bind_eq_ok_iff.1 h
    cases h
    exact ⟨hx, hy, hnfa⟩
  · rintro ⟨hx, hy, hnfa⟩
    rw [front, hx, ok_bind, hy, ok_bind, hnfa, ok_bind]

theorem assembles_of_front {x y : List Char} {nfa : Automaton} (h : front p text = .ok (x, y, nfa)) :
    Assembles p text nfa := assembles_iff.2 ⟨x, y, front_eq_ok_iff.1 h⟩

theorem conclude_eq {x y : List Char} {nfa dfa m : Automaton} (hm : dfa.minimize = .ok m) :
    conclude x y nfa dfa = .ok ⟨x, y, nfa, dfa, m⟩ := by
  rw [conclude, hm]
  rfl

/-- Each stage is made from the one before. -/
theorem stages_spec {c : Compiler} {st : Stages} (h : c.stages text = .ok st) :
    Assembles c.precedence text st.nfa ∧ c.determinize st.nfa = .ok st.dfa ∧
      st.dfa.minimize = .ok st.minimal := by
  rw [stages_eq] at h
  obtain ⟨⟨x, y, nfa⟩, hfront, h⟩ := bind_eq_ok_iff.1 h
  obtain ⟨dfa, hdfa, h⟩ := bind_eq_ok_iff.1 h
  obtain ⟨m, hm, h⟩ := bind_eq_ok_iff.1 h
  cases h
  exact ⟨assembles_of_front (mapError_eq_ok_iff.1 hfront), mapError_eq_ok_iff.1 hdfa,
    mapError_eq_ok_iff.1 hm⟩

theorem assembles_of_stages {c : Compiler} {st : Stages} (h : c.stages text = .ok st) :
    Assembles c.precedence text st.nfa := (stages_spec h).1

/-- No stage behind the evaluation fails, and none changes the language. -/
theorem exists_stages_of_assembles {nfa : Automaton} (h : Assembles p text nfa) :
    ∃ st, ({ precedence := p } : Compiler).stages text = .ok st ∧
      ∀ w, st.minimal.accepts w = nfa.acceptsByAnyPath w := by
  obtain ⟨hw, hf, s, hs⟩ := h.spec
  obtain ⟨x, y, hfront⟩ := assembles_iff.1 h
  obtain ⟨m, hm, hlang⟩ := Automaton.exists_minimize_determinize hs
  refine ⟨⟨x, y, nfa, nfa.determinize, m⟩, ?_, fun w => ?_⟩
  · rw [stages_eq, front_eq_ok_iff.2 hfront]
    exact conclude_eq hm
  · rw [hlang w, Automaton.accepts_determinize hw hf hs w]

end Compiler

/-! ## Nested parentheses around nothing -/

namespace Pattern

theorem joined_rightParens (after : Bool) (k : Nat) :
    joined after (List.replicate k rightParen) = List.replicate k rightParen := by
  induction k generalizing after with
  | zero => rfl
  | succ k ih =>
    rw [List.replicate_succ, joined, ih]
    cases after <;> rfl

theorem joined_parens (k m : Nat) :
    joined false (List.replicate k leftParen ++ List.replicate m rightParen) =
      List.replicate k leftParen ++ List.replicate m rightParen := by
  induction k with
  | zero => exact joined_rightParens false m
  | succ k ih =>
    rw [List.replicate_succ, List.cons_append, joined]
    show leftParen :: joined false _ = _
    rw [ih]

/-- When only parentheses are left, no closing one is followed by an opening one: concatenation would
have been meant between them. -/
theorem eq_parens_of_joined {after : Bool} {depth : Nat} {ts : List Token}
    (h : ∀ t ∈ joined after ts, t = leftParen ∨ t = rightParen)
    (hb : Balanced depth (joined after ts)) :
    ∃ k, (after = true → k = 0) ∧
      ts = List.replicate k leftParen ++ List.replicate (k + depth) rightParen := by
  induction ts generalizing after depth with
  | nil =>
    have hd : depth = 0 := hb
    subst hd
    exact ⟨0, fun _ => rfl, rfl⟩
  | cons t ts ih =>
    rw [joined] at h hb
    rw [balanced_lead_append] at hb
    have hrest : ∀ u ∈ joined t.ends ts, u = leftParen ∨ u = rightParen := fun u hu =>
      h u (List.mem_append_right _ (List.mem_cons_of_mem t hu))
    rcases h t (List.mem_append_right _ List.mem_cons_self) with rfl | rfl
    · cases after with
      | true =>
        have := h (op .concat) (by simp [lead, begins])
        simp at this
      | false =>
        obtain ⟨k, -, rfl⟩ := ih hrest ((balanced_leftParen _ _).1 hb)
        refine ⟨k + 1, (absurd · Bool.false_ne_true), ?_⟩
        rw [List.replicate_succ, List.cons_append, Nat.add_right_comm]
        rfl
    · cases depth with
      | zero => exact absurd hb id
      | succ depth =>
        obtain ⟨k, hk, rfl⟩ := ih hrest ((balanced_rightParen _ _).1 hb)
        cases hk rfl
        exact ⟨0, fun _ => rfl, by simp [List.replicate_succ]⟩

end Pattern

namespace Lexeme

theorem text_eq_render {ls : List Lexeme} (hls : ∀ l ∈ ls, l.Proper)
    (h : ∀ t ∈ expansion ls, t = leftParen ∨ t = rightParen) : text ls = render (expansion ls) := by
  induction ls with
  | nil => rfl
  | cons l ls ih =>
    have hrest := ih (fun m hm => hls m (List.mem_cons_of_mem l hm)) fun t ht =>
      h t (List.mem_append_right _ ht)
    rw [text_cons, expansion_cons, render_append, hrest]
    have hl : ∀ t ∈ l.tokens, t = leftParen ∨ t = rightParen := fun t ht =>
      h t (List.mem_append_left _ ht)
    cases l with
    | single t => simp [chars, tokens]
    | wildcard => exact absurd (hl (range 'a' 'z') (by decide)) (by decide)
    | items ts =>
      obtain ⟨hne, hts⟩ := hls _ List.mem_cons_self
      cases ts with
      | nil => exact absurd rfl hne
      | cons t ts =>
        have hop := (hts t List.mem_cons_self).2
        have hmem : t ∈ tokens (.items (t :: ts)) := by cases ts <;> simp [tokens, grouped, alternatives]
        rcases hl t hmem with rfl | rfl <;> cases hop

end Lexeme

theorem render_parens (k : Nat) :
    render (List.replicate k leftParen ++ List.replicate k rightParen) = parens k := by
  simp [render, parens, List.flatMap_replicate, Token.chars]

namespace Precedence

open Waiting

theorem reorder_rightParens (p : Precedence) (k : Nat) :
    p.reorder (List.replicate k .group) (List.replicate k rightParen) = .ok [] := by
  induction k with
  | zero => rfl
  | succ k ih =>
    rw [List.replicate_succ, List.replicate_succ, reorder]
    show (p.reorder (List.replicate k .group) (List.replicate k rightParen) >>=
      fun out => .ok ([] ++ out)) = _
    rw [ih]
    rfl

theorem reorder_parens (p : Precedence) (depth k : Nat) :
    p.reorder (List.replicate depth .group)
      (List.replicate k leftParen ++ List.replicate (k + depth) rightParen) = .ok [] := by
  induction k generalizing depth with
  | zero =>
    rw [Nat.zero_add]
    exact reorder_rightParens p depth
  | succ k ih =>
    rw [List.replicate_succ, List.cons_append, reorder, ← List.replicate_succ, Nat.add_right_comm]
    exact ih (depth + 1)

end Precedence

/-! ## The grammar -/

variable {p : Precedence} {text : List Char} {e : Expr}

theorem grammatical_of_assembles {nfa : Automaton} (h : Assembles p text nfa) :
    (∃ k, text = parens k) ∨ ∃ e, Reads .alternation text e := by
  obtain ⟨ls, out, b, hls, rfl, hout, hb, hnfa⟩ := h
  have hsingle := Precedence.single_reorder (Lexeme.proper_explicit hls) hout
  have hle := (Assembly.finish_spec (Assembly.sound_empty.foldlM_take hsingle hb) hnfa).1
  have hbal : Balanced 0 (Lexeme.explicit ls) := Precedence.balanced_of_reorder hout
  have hnet : net out = net (Lexeme.explicit ls) + 0 := Precedence.net_reorder hout
  obtain ⟨hlen, hnil⟩ := Assembly.length_foldlM_take hb
  have hstart : (({} : Assembly).stack.length : Int) = 0 := rfl
  -- The net of the explicit form is the number of fragments left, which is none or one.
  by_cases hstack : b.stack = []
  · left
    cases hnil hstack
    obtain ⟨hts, -⟩ := Precedence.eq_nil_of_reorder hout
    obtain ⟨k, -, hk⟩ := eq_parens_of_joined hts hbal
    have hparens : ∀ t ∈ Lexeme.expansion ls, t = leftParen ∨ t = rightParen := by
      intro t ht
      rw [hk] at ht
      rcases List.mem_append.1 ht with ht | ht
      · exact .inl (List.eq_of_mem_replicate ht)
      · exact .inr (List.eq_of_mem_replicate ht)
    refine ⟨k, ?_⟩
    rw [Lexeme.text_eq_render hls hparens, hk]
    exact render_parens k
  · right
    have hpos : 0 < b.stack.length := List.length_pos_iff.2 hstack
    have hone : net (Lexeme.explicit ls) = 1 := by omega
    exact exists_reads_of_alternates hls (alternates_joined hone) hbal

/-- The lexemes of nested parentheses around nothing, with the explicit form. -/
theorem exists_lexemes_of_parens (k : Nat) :
    ∃ ls, (∀ l ∈ ls, Lexeme.Proper l) ∧ Lexeme.text ls = parens k ∧
      Lexeme.explicit ls = List.replicate k leftParen ++ List.replicate k rightParen := by
  refine ⟨List.replicate k (.single leftParen) ++ List.replicate k (.single rightParen),
    fun l hl => ?_, ?_, ?_⟩
  · rcases List.mem_append.1 hl with hl | hl
    · rw [List.eq_of_mem_replicate hl]
      trivial
    · rw [List.eq_of_mem_replicate hl]
      trivial
  · simp [Lexeme.text, parens, List.flatMap_replicate, Lexeme.chars, Token.chars]
  · rw [← joined_parens k k]
    simp [Lexeme.explicit, Lexeme.expansion, List.flatMap_replicate, Lexeme.tokens]

/-- Nested parentheses around nothing are evaluated to the empty text. -/
theorem exists_assembles_parens (p : Precedence) (k : Nat) :
    ∃ nfa, Assembles p (parens k) nfa ∧ ∀ w, nfa.acceptsByAnyPath w = true ↔ w = [] := by
  obtain ⟨nfa, hnfa, hlang⟩ := Assembly.exists_finish_empty
  obtain ⟨ls, hls, htext, hexplicit⟩ := exists_lexemes_of_parens k
  refine ⟨nfa, ⟨ls, [], {}, hls, htext, ?_, rfl, hnfa⟩, hlang⟩
  rw [hexplicit]
  exact p.reorder_parens 0 k

/-- Whatever the levels are, a phrase is evaluated. -/
theorem exists_assembles_of_reads (hp : p.Total) (h : Reads .alternation text e) :
    ∃ nfa, Assembles p text nfa := by
  obtain ⟨ls, hls, htext, hphrase⟩ := exists_lexemes_of_reads h
  have hreorder : ∃ out, p.reorder [] (Lexeme.explicit ls) = .ok out ∧ Evaluates 0 out 1 :=
    Precedence.exists_reorder hp (Lexeme.proper_explicit hls) (fun _ hm => by cases hm)
      hphrase.formed.alternates hphrase.formed.balanced
  obtain ⟨out, hout, heval⟩ := hreorder
  obtain ⟨b, hb, hlen⟩ := Assembly.exists_take (b := {}) heval rfl
  obtain ⟨nfa, hnfa⟩ := Assembly.exists_finish (Nat.le_of_eq hlen)
  exact ⟨nfa, ls, out, b, hls, htext, hout, hb, hnfa⟩

/-- With the standard levels, a phrase is evaluated to an automaton for its language. -/
theorem exists_assembles_language (h : Reads .alternation text e) :
    ∃ nfa, Assembles .standard text nfa ∧ ∀ w, nfa.acceptsByAnyPath w = true ↔ w ∈ e.language := by
  obtain ⟨ls, hls, htext, hphrase⟩ := exists_lexemes_of_reads h
  have hout := Precedence.reorder_standard hphrase
  have hsingle := Precedence.single_reorder hphrase.formed.proper hout
  obtain ⟨nfa, hnfa, hlang⟩ := Automaton.exists_ofPostorder hphrase.proper
  obtain ⟨b, hb, hfinish⟩ := (Automaton.ofPostorder_render hsingle).1 hnfa
  exact ⟨nfa, ⟨ls, _, b, hls, htext, hout, hb, hfinish⟩, hlang⟩

theorem exists_assembles_of_denotes {L : Language Char} (h : Denotes text L) :
    ∃ nfa, Assembles .standard text nfa ∧ ∀ w, nfa.acceptsByAnyPath w = true ↔ w ∈ L := by
  cases h with
  | parens k => exact exists_assembles_parens _ k
  | expr h => exact exists_assembles_language h

/-- The compiler accepts the patterns of the grammar and no others, as long as each operator has a
level. -/
theorem Compiler.exists_stages_iff_reads (hp : p.Total) :
    (∃ st, ({ precedence := p } : Compiler).stages text = .ok st) ↔
      (∃ k, text = parens k) ∨ ∃ e, Reads .alternation text e := by
  constructor
  · rintro ⟨st, h⟩
    exact grammatical_of_assembles (assembles_of_stages h)
  · rintro (⟨k, rfl⟩ | ⟨e, h⟩)
    · obtain ⟨nfa, ha, -⟩ := exists_assembles_parens p k
      obtain ⟨st, hst, -⟩ := exists_stages_of_assembles ha
      exact ⟨st, hst⟩
    · obtain ⟨nfa, ha⟩ := exists_assembles_of_reads hp h
      obtain ⟨st, hst, -⟩ := exists_stages_of_assembles ha
      exact ⟨st, hst⟩

/-- Levels by which repetition binds looser than anything else. -/
def Precedence.looseRepetition : Precedence :=
  ofList [(.concat, 0), (.alternation, 1), (.star, 2), (.plus, 2), (.optional, 2)]

theorem Compiler.exists_stages_looseRepetition :
    Precedence.looseRepetition.Total ∧
      ∃ st, ({ precedence := .looseRepetition } : Compiler).stages ['a', 'b', '*', '|', 'c'] = .ok st := by
  have hp : Precedence.looseRepetition.Total := by
    intro o ho
    cases o <;> first | exact absurd rfl ho | exact ⟨_, rfl⟩
  have hsymbol : ∀ c, isSymbol c = true → Reads .repetition [c] (.symbol c) := fun c hc =>
    .atom (.item (.symbol hc))
  have h : Reads .alternation ((['a'] ++ ['b', '*']) ++ '|' :: ['c']) _ :=
    .alternation (.concatenation (.follow (.repetition (hsymbol 'a' rfl)) (.star (hsymbol 'b' rfl))))
      (.repetition (hsymbol 'c' rfl))
  exact ⟨hp, (exists_stages_iff_reads hp).2 (.inr ⟨_, h⟩)⟩

theorem compile_eq_ok_iff {d : Automaton} :
    compile text = .ok d ↔ ∃ st, ({ precedence := .standard } : Compiler).stages text = .ok st ∧
      st.minimal = d := by
  show ((({ precedence := .standard } : Compiler).stages text).map Stages.minimal) = _ ↔ _
  cases ({ precedence := .standard } : Compiler).stages text <;> simp [Except.map]

/-- A pattern that compiles denotes a language, and its automaton accepts this language. -/
theorem compile_accepts_iff {d : Automaton} (h : compile text = .ok d) :
    (∃ L, Denotes text L) ∧ ∀ L, Denotes text L → ∀ w, d.accepts w = true ↔ w ∈ L := by
  obtain ⟨st, hst, rfl⟩ := compile_eq_ok_iff.1 h
  constructor
  · rcases grammatical_of_assembles (Compiler.assembles_of_stages hst) with ⟨k, rfl⟩ | ⟨e, he⟩
    · exact ⟨1, .parens k⟩
    · exact ⟨e.language, .expr he⟩
  · intro L hL w
    obtain ⟨nfa, ha, hlang⟩ := exists_assembles_of_denotes hL
    obtain ⟨st', hst', hminimal⟩ := Compiler.exists_stages_of_assembles ha
    cases hst.symm.trans hst'
    rw [hminimal w]
    exact hlang w

/-- A letter, and perhaps a digit or the letter x behind it. -/
theorem compile_accepts_iff_class :
    ∃ d, compile ['a', '[', '0', '-', '9', 'x', ']', '?'] = .ok d ∧
      d.accepts ['a', 'x'] = true ∧ d.accepts ['x'] = false := by
  have hclass : Reads .atom ('[' :: (['0', '-', '9'] ++ ['x']) ++ [']']) _ :=
    .items (.more (.one (.range (by decide))) (.symbol (by decide)))
  have hreads : Reads .alternation (['a'] ++ (('[' :: (['0', '-', '9'] ++ ['x']) ++ [']']) ++ ['?'])) _ :=
    .concatenation (.follow (.repetition (.atom (.item (.symbol (by decide)))))
      (.optional (.atom hclass)))
  obtain ⟨nfa, ha, -⟩ := exists_assembles_language hreads
  obtain ⟨st, hst, -⟩ := Compiler.exists_stages_of_assembles ha
  have hd := compile_eq_ok_iff.2 ⟨st, hst, rfl⟩
  have hlang := (compile_accepts_iff hd).2 _ (.expr hreads)
  refine ⟨st.minimal, hd, ?_, ?_⟩
  · rw [hlang]
    exact Language.mem_mul.2 ⟨['a'], rfl, ['x'], .inr (.inr rfl), rfl⟩
  · rw [Bool.eq_false_iff, Ne, hlang]
    rintro h
    obtain ⟨u, hu, v, hv, h⟩ := Language.mem_mul.1 h
    have hu : u = ['a'] := hu
    subst hu
    cases h

end PatternAutomata
