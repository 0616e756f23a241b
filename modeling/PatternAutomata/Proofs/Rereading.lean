import PatternAutomata.Proofs.Compiler

/-!
# Explicit patterns are read as they were written

The stages of the compiler hand text to one another, so each must find the tokens that the one before
wrote.  An explicit pattern is a text of proper tokens, which are lexemes of their own and with every
concatenation between them; it expands to these tokens and nothing is put between them again:

    explicit text = .ok x → explicit x = .ok x                             (explicit_explicit)

Tokens and text are inverse to one another where a text can carry the tokens, and what an explicit
pattern is written from is of this kind:

    scan text = .ok ts → render ts = text,  scan (render ts) = .ok ts ↔ Legible ts,
    explicit text = .ok x → scan x = .ok (withConcat ts) for the ts that text expands to
                                                                            (scan_inverse_render)
-/

namespace PatternAutomata

open Token Pattern

/-! ## Writing concatenation out once more -/

namespace Lexeme

/-- Tokens of an explicit pattern as lexemes of their own. -/
def singles (ts : List Token) : List Lexeme := ts.map single

@[simp] theorem text_singles (ts : List Token) : text (singles ts) = render ts :=
  List.flatMap_map ..

@[simp] theorem expansion_singles (ts : List Token) : expansion (singles ts) = ts := by
  induction ts with
  | nil => rfl
  | cons t ts ih => exact congrArg (t :: ·) ih

theorem proper_singles {ts : List Token} (h : ∀ t ∈ ts, t.Proper) : ∀ l ∈ singles ts, l.Proper := by
  intro l hl
  obtain ⟨t, ht, rfl⟩ := List.mem_map.1 hl
  exact h t ht

/-- What is explicit already stays as it is. -/
theorem explicit_singles (ls : List Lexeme) : explicit (singles (explicit ls)) = explicit ls := by
  unfold explicit
  rw [expansion_singles, joined_joined]

end Lexeme

/-- Making a pattern explicit again changes nothing, whatever the later stages make of it. -/
theorem Pattern.explicit_explicit {text x : List Char} (h : explicit text = .ok x) :
    explicit x = .ok x := by
  obtain ⟨ls, hls, -, rfl⟩ := explicit_eq_ok_iff.1 h
  have hproper := Lexeme.proper_explicit hls
  exact explicit_eq_ok_iff.2 ⟨Lexeme.singles (Lexeme.explicit ls), Lexeme.proper_singles hproper,
    Lexeme.text_singles _, by rw [Lexeme.explicit_singles]⟩

/-- A pattern with a parenthesis that opens nowhere and an operator without its operand. -/
theorem Pattern.explicit_explicit_unmatched :
    explicit [')', 'a', '[', 'b', '0', '-', '9', ']', '*', '(', '|'] =
        .ok (")&a&(b|0-9)*&(|".toList) ∧
      explicit ")&a&(b|0-9)*&(|".toList = .ok ")&a&(b|0-9)*&(|".toList := by
  have h : explicit [')', 'a', '[', 'b', '0', '-', '9', ']', '*', '(', '|'] =
      .ok (")&a&(b|0-9)*&(|".toList) := by rfl
  exact ⟨h, explicit_explicit h⟩

/-! ## Tokens and text -/

/-- The tokens that a pattern expands to, with concatenation, are found again in its explicit form. -/
theorem Pattern.exists_expand_of_explicit {text x : List Char} (h : explicit text = .ok x) :
    ∃ ts, expand text = .ok ts ∧ x = render (withConcat ts) ∧ ∀ t ∈ withConcat ts, t.Proper := by
  obtain ⟨ls, hls, htext, rfl⟩ := explicit_eq_ok_iff.1 h
  have hexpand : expand text = .ok (Lexeme.expansion ls) := expand_eq_ok_iff.2 ⟨ls, hls, htext, rfl⟩
  have hconcat := withConcat_eq (Lexeme.proper_expansion hls)
  refine ⟨_, hexpand, ?_, ?_⟩
  · rw [hconcat]
    rfl
  · rw [hconcat]
    exact Lexeme.proper_explicit hls

/-- A text gives back what is read from it, the text of some tokens gives them back exactly when they are
legible, and the tokens of an explicit pattern are: the reordering works on the tokens that the
pattern was made of. -/
theorem Token.scan_inverse_render :
    (∀ text ts, scan text = .ok ts → render ts = text) ∧
    (∀ ts, scan (render ts) = .ok ts ↔ Legible ts) ∧
    ∀ text x, explicit text = .ok x →
      ∃ ts, expand text = .ok ts ∧ x = render (withConcat ts) ∧ Legible (withConcat ts) ∧
        scan x = .ok (withConcat ts) ∧
        ∀ p : Precedence, p.postorder x = (p.reorder [] (withConcat ts)).map render := by
  refine ⟨fun _ _ => render_scan, fun _ => scan_render_iff, fun text x h => ?_⟩
  obtain ⟨ts, hexpand, rfl, hproper⟩ := exists_expand_of_explicit h
  have hscan := scan_render hproper
  refine ⟨ts, hexpand, rfl, legible_of_proper hproper, hscan, fun p => ?_⟩
  unfold Precedence.postorder
  rw [hscan]
  rfl

/-- A dash of its own between two symbols is lost in the text, and one behind a parenthesis is not. -/
theorem Token.scan_inverse_render_dash :
    scan (render [symbol 'a', op .range, symbol 'c']) ≠ .ok [symbol 'a', op .range, symbol 'c'] ∧
      scan (render [rightParen, op .range, symbol 'c']) = .ok [rightParen, op .range, symbol 'c'] ∧
      ∃ ts, expand "[a-c]x".toList = .ok ts ∧ scan "(a-c)&x".toList = .ok (withConcat ts) := by
  obtain ⟨-, hlegible, hexplicit⟩ := scan_inverse_render
  refine ⟨fun h => ?_, rfl, ?_⟩
  · exact ((hlegible _).1 h).apart 'a' (symbol 'c') rfl ⟨[], [], rfl⟩
  · obtain ⟨ts, hexpand, -, -, hscan, -⟩ := hexplicit "[a-c]x".toList "(a-c)&x".toList rfl
    exact ⟨ts, hexpand, hscan⟩

end PatternAutomata
