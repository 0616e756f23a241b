import PatternAutomata.Proofs.Guarded.Compiler

/-!
# How a compilation can fail

Once the explicit form of a pattern is found, little can go wrong.  Reordering misses a parenthesis or
the level of an operator, and nothing else (`reorder_eq_error`).  What it writes are the tokens of the
explicit form as they are composed, so a range operator finds two symbols that are a range, and only
other operators can miss an operand (`foldlM_take_eq_error`).  At most one fragment is left in the end,
as concatenation has been put between all neighbours (`net_joined_le`).

Behind the evaluation only a work limit can fail, and no stage stops at anything that was held to be
impossible (`Guarded.stages_eq`).
-/

namespace PatternAutomata

open Token Pattern

open Waiting hiding op

/-! ## Reordering -/

namespace Waiting

theorem closeGroup_eq_error {stack : List Waiting} {e : PatternError}
    (h : closeGroup stack = .error e) : e = .unmatchedParenthesis := by
  induction stack with
  | nil =>
    cases h
    rfl
  | cons w stack ih =>
    cases w with
    | group => cases h
    | op o l =>
      rcases bind_eq_error_iff.1 h with h | ⟨_, -, h⟩
      · exact ih h
      · cases h

theorem releaseAll_eq_error {stack : List Waiting} {e : PatternError}
    (h : releaseAll stack = .error e) : e = .unmatchedParenthesis := by
  induction stack with
  | nil => cases h
  | cons w stack ih =>
    cases w with
    | group =>
      cases h
      rfl
    | op o l =>
      rcases bind_eq_error_iff.1 h with h | ⟨_, -, h⟩
      · exact ih h
      · cases h

end Waiting

namespace Precedence

variable {p : Precedence} {stack : List Waiting} {ts out : List Token} {e : PatternError}

theorem reorder_eq_error (h : p.reorder stack ts = .error e) :
    e = .unmatchedParenthesis ∨
      ∃ o, e = .unknownOperator o ∧ op o ∈ ts ∧ p.level? o = none := by
  have htail : ∀ {t : Token} {rest : List Token},
      (e = .unmatchedParenthesis ∨ ∃ o, e = .unknownOperator o ∧ op o ∈ rest ∧ p.level? o = none) →
      e = .unmatchedParenthesis ∨
        ∃ o, e = .unknownOperator o ∧ op o ∈ t :: rest ∧ p.level? o = none := by
    rintro t rest (h | ⟨o, h, hmem, hlevel⟩)
    · exact .inl h
    · exact .inr ⟨o, h, List.mem_cons_of_mem t hmem, hlevel⟩
  fun_induction p.reorder stack ts with
  | case1 stack => exact .inl (releaseAll_eq_error h)
  | case2 stack c rest ih =>
    rcases bind_eq_error_iff.1 h with h | ⟨_, -, h⟩
    · exact htail (ih h)
    · cases h
  | case3 stack lo hi rest ih =>
    rcases bind_eq_error_iff.1 h with h | ⟨_, -, h⟩
    · exact htail (ih h)
    · cases h
  | case4 stack rest ih => exact htail (ih h)
  | case5 stack rest ih =>
    rcases bind_eq_error_iff.1 h with h | ⟨⟨os, stack'⟩, -, h⟩
    · exact .inl (closeGroup_eq_error h)
    · rcases bind_eq_error_iff.1 h with h | ⟨_, -, h⟩
      · exact htail (ih stack' h)
      · cases h
  | case6 stack o rest hlevel =>
    cases h
    exact .inr ⟨o, rfl, List.mem_cons_self, hlevel⟩
  | case7 stack o rest level hl os stack' hrel ih =>
    rcases bind_eq_error_iff.1 h with h | ⟨_, -, h⟩
    · exact htail (ih h)
    · cases h

end Precedence

/-! ## Evaluating -/

namespace Assembly

variable {b : Assembly} {o : Operator} {t : Token} {e : PatternError}

theorem apply_eq_error (ho : o ≠ .range) (h : b.apply o = .error e) : e = .missingOperand o := by
  unfold apply at h
  split at h
  case h_6 => exact absurd rfl ho
  case h_7 =>
    cases h
    rfl
  all_goals cases h

/-- A range that is composed can be taken, and so can a symbol. -/
theorem foldlM_take_composed_eq_error (ht : t.Proper) (hparen : t.isParen = false)
    (h : t.composed.foldlM take b = .error e) : ∃ o, e = .missingOperand o ∧ t = op o := by
  cases t with
  | symbol c => cases h
  | range lo hi =>
    have hs : ((b.push (.pending (.symbol lo))).push (.pending (.symbol hi))).stack =
      .pending (.symbol hi) :: .pending (.symbol lo) :: b.stack := rfl
    have h : ((b.push (.pending (.symbol lo))).push (.pending (.symbol hi))).apply .range >>=
      (fun b => .ok b) = .error e := h
    rw [apply_range ht hs] at h
    cases h
  | op o =>
    rcases bind_eq_error_iff.1 h with h | ⟨_, -, h⟩
    · exact ⟨o, apply_eq_error ht h, rfl⟩
    · cases h
  | leftParen => cases hparen
  | rightParen => cases hparen

theorem foldlM_take_eq_error {us : List Token} (hus : ∀ t ∈ us, t.Proper ∧ t.isParen = false)
    (h : (us.flatMap composed).foldlM take b = .error e) : ∃ o, e = .missingOperand o ∧ op o ∈ us := by
  induction us generalizing b with
  | nil => cases h
  | cons t us ih =>
    obtain ⟨⟨ht, hparen⟩, hus⟩ := List.forall_mem_cons.1 hus
    rw [List.flatMap_cons, List.foldlM_append] at h
    rcases bind_eq_error_iff.1 h with h | ⟨_, -, h⟩
    · obtain ⟨o, he, rfl⟩ := foldlM_take_composed_eq_error ht hparen h
      exact ⟨o, he, List.mem_cons_self⟩
    · obtain ⟨o, he, ho⟩ := ih hus h
      exact ⟨o, he, List.mem_cons_of_mem t ho⟩

end Assembly

variable {p : Precedence} {text x y : List Char} {out : List Token} {e : PatternError}

/-- What is written for a joined list fails only for an operator of the list that misses an operand. -/
theorem Automaton.ofPostorder_eq_error {ts : List Token} (hts : ∀ t ∈ joined false ts, t.Proper)
    (hout : p.reorder [] (joined false ts) = .ok out) (h : ofPostorder (render out) = .error e) :
    ∃ o, e = .missingOperand o ∧ op o ∈ joined false ts := by
  have hsingle := Precedence.single_reorder hts hout
  have hnet : net out = net (joined false ts) + 0 := Precedence.net_reorder hout
  have hle : net (joined false ts) ≤ 1 := net_joined_le false ts
  unfold ofPostorder at h
  rw [scanSingly_render hsingle] at h
  have h : (out.foldlM Assembly.take {} >>= fun b => b.finish) = .error e := h
  rcases bind_eq_error_iff.1 h with h | ⟨b, hb, h⟩
  · obtain ⟨us, rfl, -, hperm⟩ := Precedence.rearranges_of_reorder hout
    have hmem : ∀ {t}, t ∈ us → t ∈ joined false ts ∧ t.isParen = false := fun {t} ht => by
      have ht : t ∈ withoutParens (joined false ts) := hperm.mem_iff.1 ht
      simpa [withoutParens] using ht
    obtain ⟨o, he, ho⟩ := Assembly.foldlM_take_eq_error
      (fun t ht => ⟨hts t (hmem ht).1, (hmem ht).2⟩) h
    exact ⟨o, he, (hmem ho).1⟩
  · have hlen := (Assembly.length_foldlM_take hb).1
    have hstart : (({} : Assembly).stack.length : Int) = 0 := rfl
    obtain ⟨a, ha⟩ := Assembly.exists_finish (b := b) (by omega)
    rw [ha] at h
    cases h

/-! ## Compiling -/

namespace Compiler

/-- How a compilation can fail when the explicit form has the tokens `ts`. -/
inductive Refused (c : Compiler) (ts : List Token) : Failure → Prop where
  | unmatchedParenthesis : Refused c ts (.pattern .unmatchedParenthesis)
  | unknownOperator {o : Operator} (ho : op o ∈ ts) (hlevel : c.precedence.level? o = none) :
      Refused c ts (.pattern (.unknownOperator o))
  | missingOperand {o : Operator} (ho : op o ∈ ts) : Refused c ts (.pattern (.missingOperand o))
  | tooComplex {limit : Nat} (hlimit : c.limit = some limit) : Refused c ts (.tooComplex ⟨limit⟩)

variable {c : Compiler}

theorem determinize_eq_error {a : Automaton} {e : TooComplex} (h : c.determinize a = .error e) :
    ∃ limit, c.limit = some limit ∧ e = ⟨limit⟩ := by
  unfold Compiler.determinize at h
  split at h
  · cases h
  · next limit hlimit =>
    refine ⟨limit, hlimit, ?_⟩
    rcases a.determinizeWithin_cases limit with hd | hd
    · cases h.symm.trans hd
    · exact Except.error.inj (h.symm.trans hd)

/-- The explicit form of a pattern is read as the tokens that it was written from. -/
theorem exists_lexemes_of_explicit (hx : explicit text = .ok x) :
    ∃ ls, (∀ t ∈ Lexeme.explicit ls, t.Proper) ∧ scan x = .ok (Lexeme.explicit ls) ∧
      x = render (Lexeme.explicit ls) := by
  obtain ⟨ls, hls, -, rfl⟩ := Pattern.explicit_eq_ok_iff.1 hx
  have hproper := Lexeme.proper_explicit hls
  exact ⟨ls, hproper, scan_render hproper, rfl⟩

variable {ts : List Token}

theorem refused_of_front (hx : explicit text = .ok x) (hts : scan x = .ok ts)
    (h : front c.precedence text = .error e) : Refused c ts (.pattern e) := by
  obtain ⟨ls, hproper, hscan, rfl⟩ := exists_lexemes_of_explicit hx
  cases hscan.symm.trans hts
  unfold front Precedence.postorder at h
  rw [hx, ok_bind, hscan, ok_bind] at h
  rcases bind_eq_error_iff.1 h with h | ⟨y, hy, h⟩
  · rcases bind_eq_error_iff.1 h with h | ⟨_, -, h⟩
    · rcases Precedence.reorder_eq_error h with rfl | ⟨o, rfl, ho, hlevel⟩
      · exact .unmatchedParenthesis
      · exact .unknownOperator ho hlevel
    · cases h
  · obtain ⟨out, hout, hy⟩ := bind_eq_ok_iff.1 hy
    cases hy
    rcases bind_eq_error_iff.1 h with h | ⟨_, -, h⟩
    · obtain ⟨o, rfl, ho⟩ := Automaton.ofPostorder_eq_error hproper hout h
      exact .missingOperand ho
    · cases h

theorem refused_of_back {f : Failure} {nfa : Automaton} (hnfa : Assembles c.precedence text nfa)
    (h : c.back (x, y, nfa) = .error f) : Refused c ts f := by
  obtain ⟨-, -, s, hs⟩ := hnfa.spec
  rcases bind_eq_error_iff.1 h with h | ⟨d, hd, h⟩
  · obtain ⟨e, he, rfl⟩ := mapError_eq_error_iff.1 h
    obtain ⟨limit, hlimit, rfl⟩ := determinize_eq_error he
    exact .tooComplex hlimit
  · cases eq_determinize (mapError_eq_ok_iff.1 hd)
    obtain ⟨m, hm, -⟩ := Automaton.exists_minimize_determinize hs
    rw [conclude_eq hm] at h
    cases h

theorem refused_of_stages {f : Failure} (hx : explicit text = .ok x) (hts : scan x = .ok ts)
    (h : c.stages text = .error f) : Refused c ts f := by
  rw [stages_eq] at h
  rcases bind_eq_error_iff.1 h with h | ⟨r, hr, h⟩
  · obtain ⟨e, he, rfl⟩ := mapError_eq_error_iff.1 h
    exact refused_of_front hx hts he
  · obtain ⟨x', y, nfa⟩ := r
    exact refused_of_back (assembles_of_front (mapError_eq_ok_iff.1 hr)) h

/-- A misuse is no way to fail, whether or not the explicit form is found. -/
theorem stages_ne_misuse (c : Compiler) (text : List Char) (m : Misuse) :
    c.stages text ≠ .error (.misuse m) := by
  intro h
  cases hx : explicit text with
  | error e =>
    rw [stages_eq, front, hx] at h
    cases h
  | ok x =>
    obtain ⟨ls, -, hscan, -⟩ := exists_lexemes_of_explicit hx
    cases refused_of_stages hx hscan h

/-- No compilation stops at what was held to be impossible.  Once the explicit form is found it can be
read, and what fails then is a parenthesis without a partner, an operator without a level or without an
operand, or the work limit. -/
theorem stages_failures (c : Compiler) (text : List Char) :
    (Guarded.stages c text = Guarded.returned (c.stages text) ∧
      ∀ p, Guarded.stages c text ≠ .error (.panic p)) ∧
    (∀ m, c.stages text ≠ .error (.misuse m)) ∧
    ∀ x, explicit text = .ok x →
      ∃ ts, scan x = .ok ts ∧ ∀ f, c.stages text = .error f → Refused c ts f := by
  have hguarded := Guarded.stages_eq c text
  refine ⟨⟨hguarded, fun p h => ?_⟩, c.stages_ne_misuse text, fun x hx => ?_⟩
  · rw [hguarded] at h
    obtain ⟨e, -, he⟩ := mapError_eq_error_iff.1 h
    cases he
  · obtain ⟨ls, -, hscan, -⟩ := exists_lexemes_of_explicit hx
    exact ⟨_, hscan, fun f => refused_of_stages hx hscan⟩

/-- Each of the four occurs: behind a sign of alternation, in an open group, for a star without a level,
and under a limit of zero. -/
theorem stages_failures_occur :
    (∃ ts, scan ['a', '|'] = .ok ts ∧
      Refused {} ts (.pattern (.missingOperand .alternation))) ∧
    (∃ ts, scan ['(', 'a'] = .ok ts ∧ Refused {} ts (.pattern .unmatchedParenthesis)) ∧
    (∃ ts, scan ['a', '*'] = .ok ts ∧
      Refused { precedence := .ofList [] } ts (.pattern (.unknownOperator .star))) ∧
    ∃ ts, scan ['a', '&', 'b'] = .ok ts ∧ Refused { limit := some 0 } ts (.tooComplex ⟨0⟩) := by
  have occurs : ∀ (c : Compiler) (text : List Char) {x : List Char} {f : Failure},
      explicit text = .ok x → c.stages text = .error f →
      ∃ ts, scan x = .ok ts ∧ Refused c ts f := by
    intro c text x f hx hf
    obtain ⟨ts, hts, h⟩ := (stages_failures c text).2.2 x hx
    exact ⟨ts, hts, h f hf⟩
  exact ⟨occurs _ ['a', '|'] rfl rfl, occurs _ ['(', 'a'] rfl rfl, occurs _ ['a', '*'] rfl rfl,
    occurs _ ['a', 'b'] rfl rfl⟩

end Compiler

end PatternAutomata
