import PatternAutomata.Automaton.Record
import PatternAutomata.Proofs.Determinism

/-!
# What the text of a label tells

The sign of the empty move is a character, and as a symbol that character has the same text.  A text is
read as the empty move, so the symbol is *reread* as another label than it was.  No other label is, and
no other two labels share a text:

    Label.parse? l.text = some l.reread                                        (Label.parse?_text)
    l.text = m.text ↔ l.reread = m.reread                               (Label.text_eq_text_iff)
    Label.parse? t = some l → l.text = t                                (Label.text_of_parse?)

A record has the labels of a state under their texts, and of two that share one the later is written: the
symbol takes the place of the empty moves.
-/

namespace PatternAutomata

open StrictTotal

/-! ## Texts -/

namespace Label

/-- What the text of a label is read as. -/
def reread : Label → Label
  | symbol c => if c = epsilonChar then epsilon else symbol c
  | l => l

theorem reread_eq_self_iff {l : Label} : l.reread = l ↔ l ≠ symbol epsilonChar := by
  cases l with
  | epsilon => simp [reread]
  | symbol c => by_cases hc : c = epsilonChar <;> simp [reread, hc]
  | range lo hi => simp [reread]

theorem reread_symbol_epsilonChar : (symbol epsilonChar).reread = epsilon := by simp [reread]

theorem text_reread (l : Label) : l.reread.text = l.text := by
  by_cases hl : l = symbol epsilonChar
  · rw [hl, reread_symbol_epsilonChar]
    rfl
  · rw [reread_eq_self_iff.2 hl]

theorem reread_ne (l : Label) : l.reread ≠ symbol epsilonChar := by
  by_cases hl : l = symbol epsilonChar
  · rw [hl, reread_symbol_epsilonChar]
    exact Label.noConfusion
  · rwa [reread_eq_self_iff.2 hl]

/-- Every text is read, as one label. -/
theorem parse?_text (l : Label) : parse? l.text = some l.reread :=
  parse?_eq_some_iff.2 ⟨(text_reread l).symm, reread_ne l⟩

theorem text_of_parse? {t : String} {l : Label} (h : parse? t = some l) : l.text = t :=
  (parse?_eq_some_iff.1 h).1.symm

theorem text_eq_text_iff {l m : Label} : l.text = m.text ↔ l.reread = m.reread := by
  constructor
  · intro h
    have hread := parse?_text l
    rw [h, parse?_text] at hread
    exact (Option.some.inj hread).symm
  · intro h
    rw [← text_reread l, h, text_reread]

/-- Of two labels with one text, the earlier is the empty move and the later the symbol of its sign. -/
theorem eq_of_lt_of_text_eq {l m : Label} (hlt : lt l m) (h : l.text = m.text) :
    l = epsilon ∧ m = symbol epsilonChar := by
  have hreread := text_eq_text_iff.1 h
  have hne := StrictTotal.ne_of_lt hlt
  by_cases hl : l = symbol epsilonChar
  · by_cases hm : m = symbol epsilonChar
    · exact absurd (hl.trans hm.symm) hne
    · rw [hl, reread_symbol_epsilonChar, reread_eq_self_iff.2 hm] at hreread
      rw [hl, ← hreread] at hlt
      exact absurd hlt (by decide)
  · rw [reread_eq_self_iff.2 hl] at hreread
    by_cases hm : m = symbol epsilonChar
    · rw [hm, reread_symbol_epsilonChar] at hreread
      exact ⟨hreread, hm⟩
    · rw [reread_eq_self_iff.2 hm] at hreread
      exact absurd hreread hne

end Label

/-! ## Records -/

namespace Automaton

/-- The transitions of a record have the labels of a state under their texts, but where the sign of the
empty move is a symbol they have none of the empty moves. -/
theorem get?_stateRecord_eq_some_iff (a : Automaton) (s : State) {t : String} {d : Destinations} :
    (a.stateRecord s).transitions.get? t = some d ↔
      ∃ g ∈ a.next s, g.1.text = t ∧ Destinations.ofNames (g.2.map a.name) = d ∧
        (g.1 = .epsilon → ∀ g' ∈ a.next s, g'.1 ≠ .symbol Label.epsilonChar) := by
  have hnext : (a.next s).Pairwise fun g g' => lt g.1 g'.1 := pairwise_groupByLabel (pairwise_arrows a s)
  rw [stateRecord, OrderedMap.get?_ofList_eq_some_iff]
  constructor
  · rintro ⟨l₁, l₂, hl, hbehind⟩
    obtain ⟨m₁, m, hm, rfl, hrest⟩ := List.map_eq_append_iff.1 hl
    obtain ⟨g, m₂, rfl, hg, rfl⟩ := List.map_eq_cons_iff.1 hrest
    obtain ⟨htext, hd⟩ := Prod.mk.inj hg
    refine ⟨g, by simp [hm], htext, hd, fun hepsilon g' hg' hsymbol => ?_⟩
    rw [hm] at hnext hg'
    rcases List.mem_append.1 hg' with hg' | hg'
    · have hlt := (List.pairwise_append.1 hnext).2.2 g' hg' g List.mem_cons_self
      rw [hepsilon, hsymbol] at hlt
      exact absurd hlt (by decide)
    · rcases List.mem_cons.1 hg' with rfl | hg'
      · rw [hepsilon] at hsymbol
        cases hsymbol
      · refine hbehind _ (List.mem_map_of_mem hg') ?_
        rw [← htext, hepsilon, hsymbol]
        rfl
  · rintro ⟨g, hg, rfl, rfl, hsymbol⟩
    obtain ⟨m₁, m₂, hm⟩ := List.append_of_mem hg
    refine ⟨_, _, by rw [hm, List.map_append, List.map_cons], fun e he htext => ?_⟩
    obtain ⟨g', hg', rfl⟩ := List.mem_map.1 he
    have hmem : g' ∈ a.next s := by
      rw [hm]
      exact List.mem_append_right m₁ (List.mem_cons_of_mem g hg')
    -- Labels ascend, so what comes behind `g` under its text is the symbol of the sign.
    rw [hm] at hnext
    have hlt := (List.pairwise_cons.1 (List.pairwise_append.1 hnext).2.1).1 g' hg'
    obtain ⟨hepsilon, hepsilonChar⟩ := Label.eq_of_lt_of_text_eq hlt htext.symm
    exact hsymbol hepsilon g' hmem hepsilonChar

/-- A label is read back from its text unless it is the sign of the empty move taken as a symbol, which is
read as the empty move; no other label shares its text with another one, and a text that is read as a label
is the text of that label.  So a record keeps all labels of a state apart, but where both of these stand it
has the destinations of the symbol alone. -/
theorem label_text_spec (l m : Label) (t : String) (a : Automaton) (s : State) (d : Destinations) :
    (Label.parse? l.text = some l ↔ l ≠ .symbol Label.epsilonChar) ∧
      Label.parse? (Label.symbol Label.epsilonChar).text = some .epsilon ∧
      (l.text = m.text ↔ l = m ∨ (l = .epsilon ∧ m = .symbol Label.epsilonChar) ∨
        l = .symbol Label.epsilonChar ∧ m = .epsilon) ∧
      (Label.parse? t = some l → l.text = t) ∧
      ((a.stateRecord s).transitions.get? t = some d ↔
        ∃ g ∈ a.next s, g.1.text = t ∧ Destinations.ofNames (g.2.map a.name) = d ∧
          (g.1 = .epsilon → ∀ g' ∈ a.next s, g'.1 ≠ .symbol Label.epsilonChar)) := by
  refine ⟨?_, ?_, ⟨fun h => ?_, ?_⟩, Label.text_of_parse?, get?_stateRecord_eq_some_iff a s⟩
  · rw [Label.parse?_text, Option.some.injEq, Label.reread_eq_self_iff]
  · rw [Label.parse?_text, Label.reread_symbol_epsilonChar]
  · by_cases heq : l = m
    · exact .inl heq
    · by_cases hlt : lt l m
      · exact .inr (.inl (Label.eq_of_lt_of_text_eq hlt h))
      · have hlt := StrictTotal.lt_of_not_lt_of_ne hlt (Ne.symm heq)
        exact .inr (.inr (Label.eq_of_lt_of_text_eq hlt h.symm).symm)
  · rintro (rfl | ⟨rfl, rfl⟩ | ⟨rfl, rfl⟩) <;> rfl

/-- An empty move and the symbol of its sign, out of one state. -/
def twoSigns : Automaton where
  nodes := #[
    { name := "S0", arrows := .ofList [⟨.epsilon, 1⟩, ⟨.symbol Label.epsilonChar, 2⟩] },
    { name := "S1", accepting := true },
    { name := "S2" }]
  initial := some 0

/-- The empty move is lost, and the symbol is read back as an empty move. -/
theorem label_text_spec_twoSigns :
    (twoSigns.stateRecord 0).transitions.get? "ε" = some (.single "S2") ∧
      Label.parse? "ε" = some .epsilon ∧
      ∃ b, twoSigns.toRecord.toAutomaton = .ok b ∧ b.arrows 0 = [⟨.epsilon, 2⟩] := by
  obtain ⟨-, hsign, -, -, hrecord⟩ :=
    label_text_spec .epsilon (.symbol Label.epsilonChar) "ε" twoSigns 0 (.single "S2")
  refine ⟨hrecord.2 ?_, hsign, _, rfl, rfl⟩
  exact ⟨(.symbol Label.epsilonChar, [2]), by decide, rfl, rfl, fun h => by cases h⟩

theorem not_parse?_text : ¬ ∀ l : Label, Label.parse? l.text = some l := by
  intro h
  have hsymbol := h (.symbol Label.epsilonChar)
  rw [Label.parse?_text, Label.reread_symbol_epsilonChar] at hsymbol
  cases hsymbol

end Automaton

end PatternAutomata
