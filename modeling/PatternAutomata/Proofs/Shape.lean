import PatternAutomata.Proofs.Naming

/-!
# The shape of the automaton of a postorder text

A woven part has one entry and one exit, and no state of it has more than two arrows.  So it is with the
whole automaton of a postorder text.  Its states are named after their numbers, and there are as many as
the text shows: two for an operand and for each `|`, `*` and `+`, and one for each `?`
(`Postorder.states_eq`).
-/

namespace PatternAutomata

open Token

namespace Expr

/-- Number of operands, of which a range is one. -/
def operands : Expr → Nat
  | symbol _ | range _ _ => 1
  | concat e f | alternation e f => e.operands + f.operands
  | star e | plus e | optional e => e.operands

end Expr

/-- The operators that come with states of their own can be counted in the text. -/
theorem Postorder.states_eq {t : List Char} {e : Expr} (h : Postorder t e) :
    e.states = 2 * e.operands + 2 * (t.count '|' + t.count '*' + t.count '+') + t.count '?' := by
  have hne : ∀ c : Char, isSymbol c = true → c ≠ '|' ∧ c ≠ '*' ∧ c ≠ '+' ∧ c ≠ '?' := fun c hc =>
    ⟨ne_of_isSymbol hc rfl, ne_of_isSymbol hc rfl, ne_of_isSymbol hc rfl, ne_of_isSymbol hc rfl⟩
  induction h with
  | symbol hc => simp [Expr.states, Expr.operands, hne _ hc]
  | range hr =>
    obtain ⟨hlo, hhi⟩ := isSymbol_of_isRange hr
    simp [Expr.states, Expr.operands, hne _ hlo, hne _ hhi]
  | concat _ _ ih ih' =>
    simp [Expr.states, Expr.operands, ih, ih']
    omega
  | alternation _ _ ih ih' =>
    simp [Expr.states, Expr.operands, ih, ih']
    omega
  | star _ ih =>
    simp [Expr.states, Expr.operands, ih]
    omega
  | plus _ ih =>
    simp [Expr.states, Expr.operands, ih]
    omega
  | optional _ ih =>
    simp [Expr.states, Expr.operands, ih]
    omega

namespace Automaton

/-- What a postorder text is evaluated to has one initial and one accepting state.  If there is any
text, nothing enters the former or leaves the latter, and they differ.  A state has two arrows at most,
an arrow that reads has no other beside it, and the states can be counted in the text. -/
theorem ofPostorder_shape (text : List Char) (nfa : Automaton) (h : ofPostorder text = .ok nfa) :
    ∃ i o, nfa.initial = some i ∧ (∀ s, nfa.accepting s = true ↔ s = o) ∧
      (text ≠ [] → i ≠ o ∧ (∀ s, ∀ r ∈ nfa.arrows s, r.dest ≠ i) ∧ nfa.arrows o = []) ∧
      (∀ s, nfa.Sparse s) ∧ nfa.DefaultNamed ∧
      ((text = [] ∧ nfa.size = 1) ∨ ∃ e, Postorder text e ∧
        nfa.size = 2 * e.operands + 2 * (text.count '|' + text.count '*' + text.count '+') +
          text.count '?') := by
  obtain ⟨-, -, -, hplain⟩ := ofPostorder_spec h
  rcases eq_nil_or_exists_postorder h with rfl | ⟨e, he⟩
  · obtain ⟨hsize, hinitial, haccepting, harrows⟩ := ofPostorder_nil_spec h
    exact ⟨0, 0, hinitial, haccepting, fun hne => absurd rfl hne,
      fun s => sparse_of_arrows_eq_nil (harrows s), hplain.names, .inl ⟨rfl, hsize⟩⟩
  · obtain ⟨i, o, hp, hinitial, haccepting, hsize⟩ := exists_woven_of_ofPostorder he h
    have hunentered : ∀ s, ∀ r ∈ nfa.arrows s, r.dest ≠ i := fun s r hr =>
      hp.unentered s (lt_size_of_mem_arrows hr) r hr
    have hsparse : ∀ s, nfa.Sparse s := fun s => by
      rcases Nat.lt_or_ge s nfa.size with hs | hs
      · exact hp.sparse s hs
      · exact sparse_of_arrows_eq_nil (arrows_of_le hs)
    exact ⟨i, o, hinitial, haccepting, fun _ => ⟨hp.entry_ne_exit, hunentered, hp.arrows_exit⟩,
      hsparse, hplain.names, .inr ⟨e, he, hsize.trans he.states_eq⟩⟩

/-- A letter or a `0`, any number of times, and a `c` that may be left out. -/
theorem ofPostorder_shape_letters :
    ∃ nfa i o, ofPostorder ['a', 'z', '-', '0', '|', '*', 'c', '?', '&'] = .ok nfa ∧ nfa.size = 11 ∧
      nfa.initial = some i ∧ (∀ s, nfa.accepting s = true ↔ s = o) ∧ i ≠ o ∧ nfa.arrows o = [] := by
  have hpost : Postorder (['a', 'z', '-'] ++ ['0'] ++ ['|'] ++ ['*'] ++ (['c'] ++ ['?']) ++ ['&'])
      (.concat (.star (.alternation (.range 'a' 'z') (.symbol '0'))) (.optional (.symbol 'c'))) :=
    .concat (.star (.alternation (.range (by decide)) (.symbol (by decide))))
      (.optional (.symbol (by decide)))
  obtain ⟨nfa, h⟩ := exists_eq_ok_of_isOk
    (x := ofPostorder ['a', 'z', '-', '0', '|', '*', 'c', '?', '&']) (by decide +kernel)
  obtain ⟨i, o, hinitial, haccepting, hends, -, -, hcount⟩ := ofPostorder_shape _ nfa h
  obtain ⟨hne, -, hexit⟩ := hends (by simp)
  refine ⟨nfa, i, o, h, ?_, hinitial, haccepting, hne, hexit⟩
  rcases hcount with ⟨⟨⟩, -⟩ | ⟨e, he, hsize⟩
  rw [hsize, he.unique hpost]
  rfl

end Automaton

end PatternAutomata
