import PatternAutomata.Pattern.Explicit
import PatternAutomata.Proofs.Token

/-!
# What a pattern expands to

A pattern is read from left to right in units that cannot be mistaken for one another: tokens, the
wildcard, and classes.  A dash begins none of them, and a closing bracket stands in none of the items
of a class.  So the expansion succeeds on the texts of such units only, and gives their tokens:

    expand p = .ok ts ↔ p is the text of proper lexemes and ts are their tokens   (expand_eq_ok_iff)
-/

namespace PatternAutomata

open Token

/-- A unit of a pattern as it is written. -/
inductive Lexeme where
  | single (t : Token)
  | wildcard
  | items (ts : List Token)

namespace Lexeme

/-- The characters of a lexeme. -/
def chars : Lexeme → List Char
  | single t => t.chars
  | wildcard => ['.']
  | items ts => '[' :: Token.render ts ++ [']']

/-- What a lexeme expands to. -/
def tokens : Lexeme → List Token
  | single t => [t]
  | wildcard => Pattern.grouped Pattern.wildcard
  | items ts => Pattern.grouped ts

/-- Whether a lexeme can stand in a pattern. -/
def Proper : Lexeme → Prop
  | single t => t.Proper
  | wildcard => True
  | items ts => ts ≠ [] ∧ ∀ t ∈ ts, t.Proper ∧ t.isOperand = true

/-- The text of some lexemes. -/
def text (ls : List Lexeme) : List Char := ls.flatMap chars

/-- What some lexemes expand to. -/
def expansion (ls : List Lexeme) : List Token := ls.flatMap tokens

@[simp] theorem text_nil : text [] = [] := rfl

@[simp] theorem text_cons (l : Lexeme) (ls : List Lexeme) : text (l :: ls) = l.chars ++ text ls := rfl

@[simp] theorem text_append (ls ms : List Lexeme) : text (ls ++ ms) = text ls ++ text ms :=
  List.flatMap_append

@[simp] theorem expansion_nil : expansion [] = [] := rfl

@[simp] theorem expansion_cons (l : Lexeme) (ls : List Lexeme) :
    expansion (l :: ls) = l.tokens ++ expansion ls := rfl

@[simp] theorem expansion_append (ls ms : List Lexeme) :
    expansion (ls ++ ms) = expansion ls ++ expansion ms := List.flatMap_append

theorem head?_chars_ne {l : Lexeme} (h : l.Proper) (p : List Char) :
    (l.chars ++ p).head? ≠ some '-' := by
  cases l with
  | single t =>
    have ht : ∀ u ∈ [t], u.Proper := fun u hu => List.mem_singleton.1 hu ▸ h
    have hne := head?_render_ne ht
    cases t <;> exact hne
  | wildcard => simp [chars]
  | items ts => simp [chars]

theorem head?_text_ne {ls : List Lexeme} (h : ∀ l ∈ ls, l.Proper) : (text ls).head? ≠ some '-' := by
  cases ls with
  | nil => simp
  | cons l ls => exact head?_chars_ne (h l List.mem_cons_self) _

end Lexeme

namespace Pattern

/-! ## Classes -/

theorem proper_alternatives {ts : List Token} (h : ∀ t ∈ ts, t.Proper) :
    ∀ t ∈ alternatives ts, t.Proper := by
  fun_induction alternatives ts with
  | case1 => exact h
  | case2 t => exact h
  | case3 t u rest ih =>
    have hrest := ih fun v hv => h v (List.mem_cons_of_mem t hv)
    intro v hv
    rcases List.mem_cons.1 hv with rfl | hv
    · exact h v List.mem_cons_self
    · rcases List.mem_cons.1 hv with rfl | hv
      · exact fun e => by cases e
      · exact hrest v hv

theorem proper_grouped {ts : List Token} (h : ∀ t ∈ ts, t.Proper) : ∀ t ∈ grouped ts, t.Proper := by
  intro t ht
  rcases List.mem_cons.1 ht with rfl | ht
  · trivial
  · rcases List.mem_append.1 ht with ht | ht
    · exact proper_alternatives h t ht
    · rw [List.mem_singleton.1 ht]
      trivial

theorem itemsFrom_symbol {c : Char} (hc : isSymbol c = true) (body : List Char) {p : List Char}
    (hp : p.head? ≠ some '-') : itemsFrom body (c :: p) = (itemsFrom body p).map (symbol c :: ·) := by
  match p with
  | [] =>
    unfold itemsFrom
    rw [hc]
    rfl
  | [d] =>
    have hd : d ≠ '-' := by simpa using hp
    rw [itemsFrom.eq_def]
    dsimp only
    rw [hc, if_neg (by simp [hd])]
    rfl
  | d :: e :: p =>
    have hd : d ≠ '-' := by simpa using hp
    rw [itemsFrom, if_neg (by simp [hc]), if_neg hd]
    rfl

theorem itemsFrom_range {lo hi : Char} (h : isRange lo hi = true) (body p : List Char) :
    itemsFrom body (lo :: '-' :: hi :: p) = (itemsFrom body p).map (range lo hi :: ·) := by
  obtain ⟨hlo, hhi⟩ := isSymbol_of_isRange h
  rw [itemsFrom, if_neg (by simp [hlo]), if_pos rfl, if_pos hhi, checkRange_eq_ok_iff.2 h]
  rfl

theorem itemsFrom_render {items : List Token} (body : List Char)
    (h : ∀ t ∈ items, t.Proper ∧ t.isOperand = true) :
    itemsFrom body (render items) = .ok items := by
  induction items with
  | nil => rfl
  | cons t items ih =>
    have hitems := fun u hu => h u (List.mem_cons_of_mem t hu)
    have hd := head?_render_ne fun u hu => (hitems u hu).1
    obtain ⟨ht, hop⟩ := h t List.mem_cons_self
    rw [render_cons]
    cases t with
    | symbol c =>
      refine (itemsFrom_symbol ht body hd).trans ?_
      rw [ih hitems]
      rfl
    | range lo hi =>
      refine (itemsFrom_range ht body (render items)).trans ?_
      rw [ih hitems]
      rfl
    | op o => cases hop
    | leftParen => cases hop
    | rightParen => cases hop

theorem render_itemsFrom {body p : List Char} {items : List Token}
    (h : itemsFrom body p = .ok items) :
    render items = p ∧ ∀ t ∈ items, t.Proper ∧ t.isOperand = true := by
  fun_induction itemsFrom body p generalizing items with
  | case1 =>
    cases h
    exact ⟨rfl, by simp⟩
  | case2 => cases h
  | case3 c hi rest hc hhi ih =>
    obtain ⟨u, hu, h⟩ := bind_eq_ok_iff.1 h
    obtain ⟨ts, hts, h⟩ := bind_eq_ok_iff.1 h
    cases h
    obtain ⟨hr, hp⟩ := ih hts
    exact ⟨by rw [render_cons, hr]; rfl, by simpa using ⟨⟨checkRange_eq_ok_iff.1 hu, rfl⟩, hp⟩⟩
  | case4 => cases h
  | case5 c dash hi rest hc hd ih =>
    obtain ⟨ts, hts, h⟩ := bind_eq_ok_iff.1 h
    cases h
    obtain ⟨hr, hp⟩ := ih hts
    have hc : isSymbol c = true := by simpa using hc
    exact ⟨by rw [render_cons, hr]; rfl, by simpa using ⟨⟨hc, rfl⟩, hp⟩⟩
  | case6 => cases h
  | case7 c rest hrest hc ih =>
    obtain ⟨ts, hts, h⟩ := bind_eq_ok_iff.1 h
    cases h
    obtain ⟨hr, hp⟩ := ih hts
    have hc : isSymbol c = true := by simp at hc; exact hc.1
    exact ⟨by rw [render_cons, hr]; rfl, by simpa using ⟨⟨hc, rfl⟩, hp⟩⟩

theorem classItems_eq_ok_iff {body : List Char} {items : List Token} :
    classItems body = .ok items ↔ render items = body ∧ (Lexeme.items items).Proper := by
  unfold classItems
  rw [bind_eq_ok_iff]
  constructor
  · rintro ⟨ts, hts, h⟩
    split at h
    · cases h
    · next hne =>
      cases h
      obtain ⟨hr, hp⟩ := render_itemsFrom hts
      rw [List.isEmpty_iff] at hne
      exact ⟨hr, hne, hp⟩
  · rintro ⟨rfl, hne, hp⟩
    refine ⟨items, itemsFrom_render _ hp, ?_⟩
    rw [if_neg (by rwa [List.isEmpty_iff])]

/-- Nothing in the text of the items is taken for the end of the class. -/
theorem not_mem_render_items {items : List Token}
    (h : ∀ t ∈ items, t.Proper ∧ t.isOperand = true) : ']' ∉ render items := by
  rw [render, List.mem_flatMap]
  rintro ⟨t, ht, hc⟩
  obtain ⟨hp, hop⟩ := h t ht
  cases t with
  | symbol c => exact ne_of_isSymbol hp rfl (List.mem_singleton.1 hc).symm
  | range lo hi =>
    obtain ⟨hlo, hhi⟩ := isSymbol_of_isRange hp
    rcases List.mem_cons.1 hc with hc | hc
    · exact ne_of_isSymbol hlo rfl hc.symm
    · rcases List.mem_cons.1 hc with hc | hc
      · cases hc
      · exact ne_of_isSymbol hhi rfl (List.mem_singleton.1 hc).symm
  | op o => cases hop
  | leftParen => cases hop
  | rightParen => cases hop

theorem expandClass_append {u : List Char} (hu : ']' ∉ u) (body p : List Char) :
    expandClass body (u ++ ']' :: p) = (do
      let items ← classItems (body ++ u)
      let tokens ← expand p
      .ok (grouped items ++ tokens)) := by
  induction u generalizing body with
  | nil =>
    rw [List.nil_append, List.append_nil, expandClass, if_pos rfl]
  | cons c u ih =>
    rw [List.mem_cons, not_or] at hu
    rw [List.cons_append, expandClass, if_neg fun e => hu.1 e.symm, ih hu.2, List.append_assoc]
    rfl

theorem expandClass_unclosed {p : List Char} (hp : ']' ∉ p) (body : List Char) :
    expandClass body p = .error .unmatchedBracket := by
  induction p generalizing body with
  | nil => rw [expandClass]
  | cons c p ih =>
    rw [List.mem_cons, not_or] at hp
    rw [expandClass, if_neg (Ne.symm hp.1), ih hp.2]

theorem exists_of_expandClass {body p : List Char} {ts : List Token}
    (h : expandClass body p = .ok ts) : ∃ u q, p = u ++ ']' :: q ∧ ']' ∉ u := by
  induction p generalizing body with
  | nil =>
    rw [expandClass] at h
    cases h
  | cons c p ih =>
    by_cases hc : c = ']'
    · exact ⟨[], p, by rw [hc]; rfl, List.not_mem_nil⟩
    · rw [expandClass, if_neg hc] at h
      obtain ⟨u, q, rfl, hu⟩ := ih h
      refine ⟨c :: u, q, rfl, ?_⟩
      rw [List.mem_cons, not_or]
      exact ⟨fun e => hc e.symm, hu⟩

theorem expandClass_eq_ok_iff {p : List Char} {ts : List Token} :
    expandClass [] p = .ok ts ↔ ∃ items q us, p = render items ++ ']' :: q ∧
      (Lexeme.items items).Proper ∧ expand q = .ok us ∧ ts = grouped items ++ us := by
  constructor
  · intro h
    obtain ⟨u, q, rfl, hu⟩ := exists_of_expandClass h
    rw [expandClass_append hu, List.nil_append] at h
    obtain ⟨items, hi, h⟩ := bind_eq_ok_iff.1 h
    obtain ⟨us, hus, h⟩ := bind_eq_ok_iff.1 h
    cases h
    obtain ⟨rfl, hp⟩ := classItems_eq_ok_iff.1 hi
    exact ⟨items, q, us, rfl, hp, hus, rfl⟩
  · rintro ⟨items, q, us, rfl, hp, hus, rfl⟩
    rw [expandClass_append (not_mem_render_items hp.2), List.nil_append,
      classItems_eq_ok_iff.2 ⟨rfl, hp⟩, hus]
    rfl

/-! ## Single characters -/

theorem proper_of_ofChar {c : Char} {t : Token} (h : ofChar c = .ok t) (hd : c ≠ '-') : t.Proper := by
  have hchars := chars_ofChar h
  cases t with
  | symbol d =>
    unfold ofChar at h
    split at h
    · next hc =>
      cases h
      exact hc
    · split at h
      · cases h
      · split at h
        · cases h
        · split at h <;> cases h
  | range lo hi => simp [chars] at hchars
  | op o =>
    rintro rfl
    exact hd (List.cons.inj hchars).1.symm
  | leftParen => trivial
  | rightParen => trivial

theorem expandChar_of_ofChar {c : Char} {t : Token} (h : ofChar c = .ok t) (hb : c ≠ ']')
    (hw : c ≠ '.') (hd : c ≠ '-') : expandChar c = .ok [t] := by
  unfold expandChar
  rw [if_neg hb, if_neg hw, if_neg hd, h]
  rfl

theorem exists_of_expandChar {c : Char} {ts : List Token} (h : expandChar c = .ok ts) :
    ∃ l : Lexeme, l.Proper ∧ l.chars = [c] ∧ l.tokens = ts := by
  unfold expandChar at h
  by_cases hb : c = ']'
  · rw [if_pos hb] at h
    cases h
  · rw [if_neg hb] at h
    by_cases hw : c = '.'
    · rw [if_pos hw] at h
      cases h
      exact ⟨.wildcard, trivial, by rw [hw]; rfl, rfl⟩
    · rw [if_neg hw] at h
      by_cases hd : c = '-'
      · rw [if_pos hd] at h
        cases h
      · rw [if_neg hd] at h
        cases ht : ofChar c with
        | error e =>
          rw [ht] at h
          cases h
        | ok t =>
          rw [ht] at h
          cases h
          exact ⟨.single t, proper_of_ofChar ht hd, chars_ofChar ht, rfl⟩

theorem expandChar_of_chars {c : Char} {l : Lexeme} (hl : l.Proper) (hc : l.chars = [c]) :
    expandChar c = .ok l.tokens := by
  cases l with
  | single t =>
    cases t with
    | symbol d =>
      cases hc
      exact expandChar_of_ofChar (ofChar_symbol hl) (ne_of_isSymbol hl rfl) (ne_of_isSymbol hl rfl)
        (ne_of_isSymbol hl rfl)
    | range lo hi => cases hc
    | op o =>
      cases hc
      refine expandChar_of_ofChar (ofChar_op o) ?_ ?_ ?_ <;>
        cases o <;> first | exact absurd rfl hl | decide
    | leftParen =>
      cases hc
      exact expandChar_of_ofChar rfl (by decide) (by decide) (by decide)
    | rightParen =>
      cases hc
      exact expandChar_of_ofChar rfl (by decide) (by decide) (by decide)
  | wildcard =>
    cases hc
    rfl
  | items ts => simp [Lexeme.chars] at hc

/-! ## Patterns -/

theorem expand_open (p : List Char) : expand ('[' :: p) = expandClass [] p := by
  match p with
  | [] => rw [expand.eq_def]; rfl
  | [d] => rw [expand.eq_def]; rfl
  | d :: e :: p => rw [expand]; rfl

theorem expand_range {lo hi : Char} (h : isRange lo hi = true) (p : List Char) :
    expand (lo :: '-' :: hi :: p) = (expand p).map (range lo hi :: ·) := by
  obtain ⟨hlo, hhi⟩ := isSymbol_of_isRange h
  rw [expand, if_pos (by simp [hlo]), if_pos hhi, checkRange_eq_ok_iff.2 h]
  rfl

/-- A dash behind a symbol is part of a range. -/
theorem exists_of_expand_dash {c : Char} (hc : isSymbol c = true) {p : List Char} {ts : List Token}
    (h : expand (c :: '-' :: p) = .ok ts) :
    ∃ hi q us, p = hi :: q ∧ isRange c hi = true ∧ expand q = .ok us ∧ ts = range c hi :: us := by
  cases p with
  | nil =>
    rw [expand.eq_def] at h
    dsimp only at h
    rw [if_pos (by simp [hc])] at h
    cases h
  | cons hi q =>
    rw [expand, if_pos (by simp [hc])] at h
    split at h
    · obtain ⟨u, hu, h⟩ := bind_eq_ok_iff.1 h
      obtain ⟨us, hus, h⟩ := bind_eq_ok_iff.1 h
      cases h
      exact ⟨hi, q, us, rfl, checkRange_eq_ok_iff.1 hu, hus, rfl⟩
    · cases h

theorem expand_cons {c : Char} (hb : c ≠ '[') {p : List Char}
    (hp : isSymbol c = true → p.head? ≠ some '-') :
    expand (c :: p) = (do
      let head ← expandChar c
      let tokens ← expand p
      .ok (head ++ tokens)) := by
  match p with
  | [] =>
    rw [expand.eq_def]
    dsimp only
    rw [if_neg (by simp), if_neg hb]
  | [d] =>
    rw [expand.eq_def]
    dsimp only
    rw [if_neg (by simpa using hp), if_neg hb]
  | d :: e :: p =>
    rw [expand, if_neg (by simpa using hp), if_neg hb]

theorem expand_text {ls : List Lexeme} (h : ∀ l ∈ ls, l.Proper) :
    expand (Lexeme.text ls) = .ok (Lexeme.expansion ls) := by
  induction ls with
  | nil =>
    rw [Lexeme.text_nil, expand]
    rfl
  | cons l ls ih =>
    have hls := fun m hm => h m (List.mem_cons_of_mem l hm)
    have hl := h l List.mem_cons_self
    have hd := Lexeme.head?_text_ne hls
    have single : ∀ c, l.chars = [c] → c ≠ '[' →
        expand (Lexeme.text (l :: ls)) = .ok (Lexeme.expansion (l :: ls)) := by
      intro c hc hb
      have he := expandChar_of_chars hl hc
      rw [Lexeme.text_cons, hc, List.singleton_append, expand_cons hb fun _ => hd, he, ih hls]
      rfl
    cases l with
    | single t =>
      cases t with
      | symbol c => exact single c rfl (ne_of_isSymbol hl rfl)
      | range lo hi =>
        refine (expand_range hl (Lexeme.text ls)).trans ?_
        rw [ih hls]
        rfl
      | op o => exact single o.symbol rfl (by cases o <;> decide)
      | leftParen => exact single '(' rfl (by decide)
      | rightParen => exact single ')' rfl (by decide)
    | wildcard => exact single '.' rfl (by decide)
    | items items =>
      rw [Lexeme.text_cons]
      show expand ('[' :: (render items ++ [']']) ++ Lexeme.text ls) = _
      rw [List.cons_append, expand_open, List.append_assoc]
      exact expandClass_eq_ok_iff.2 ⟨items, _, _, rfl, hl, ih hls, rfl⟩

theorem exists_of_expand {p : List Char} {ts : List Token} (h : expand p = .ok ts) :
    ∃ ls, (∀ l ∈ ls, Lexeme.Proper l) ∧ Lexeme.text ls = p ∧ Lexeme.expansion ls = ts := by
  -- Each unit leaves a shorter rest, which need not be the tail of the pattern.
  induction hn : p.length using Nat.strongRecOn generalizing p ts with
  | _ n ih =>
    have next : ∀ (l : Lexeme) (q : List Char) (us : List Token), l.Proper → p = l.chars ++ q →
        q.length < n → expand q = .ok us → ts = l.tokens ++ us →
        ∃ ls, (∀ l ∈ ls, Lexeme.Proper l) ∧ Lexeme.text ls = p ∧ Lexeme.expansion ls = ts := by
      rintro l q us hl rfl hlt hq rfl
      obtain ⟨ls, hls, rfl, rfl⟩ := ih _ hlt hq rfl
      exact ⟨l :: ls, by simpa using ⟨hl, hls⟩, rfl, rfl⟩
    cases p with
    | nil =>
      rw [expand] at h
      cases h
      exact ⟨[], by simp, rfl, rfl⟩
    | cons c p =>
      by_cases hb : c = '['
      · subst hb
        rw [expand_open] at h
        obtain ⟨items, q, us, rfl, hp, hus, rfl⟩ := expandClass_eq_ok_iff.1 h
        refine next (.items items) q us hp ?_ ?_ hus rfl
        · simp [Lexeme.chars]
        · rw [← hn]
          simp
          omega
      · by_cases hdash : isSymbol c = true ∧ p.head? = some '-'
        · obtain ⟨hc, hd⟩ := hdash
          obtain ⟨q, rfl⟩ : ∃ q, p = '-' :: q := by
            cases p with
            | nil => cases hd
            | cons d q => exact ⟨q, by rw [Option.some.inj hd]⟩
          obtain ⟨hi, q, us, rfl, hr, hus, rfl⟩ := exists_of_expand_dash hc h
          refine next (.single (.range c hi)) q us hr rfl ?_ hus rfl
          rw [← hn]
          simp only [List.length_cons]
          omega
        · rw [expand_cons hb fun hc hd => hdash ⟨hc, hd⟩] at h
          obtain ⟨head, hhead, h⟩ := bind_eq_ok_iff.1 h
          obtain ⟨us, hus, h⟩ := bind_eq_ok_iff.1 h
          cases h
          obtain ⟨l, hl, hc, rfl⟩ := exists_of_expandChar hhead
          refine next l p us hl (by rw [hc]; rfl) ?_ hus rfl
          rw [← hn]
          simp

theorem expand_eq_ok_iff {p : List Char} {ts : List Token} :
    expand p = .ok ts ↔
      ∃ ls, (∀ l ∈ ls, Lexeme.Proper l) ∧ Lexeme.text ls = p ∧ Lexeme.expansion ls = ts := by
  constructor
  · exact exists_of_expand
  · rintro ⟨ls, h, rfl, rfl⟩
    exact expand_text h

/-- What expands holds characters of the alphabet only. -/
theorem allowed_of_proper {t : Token} (h : t.Proper) {c : Char} (hc : c ∈ t.chars) :
    isSymbol c = true ∨ c ∈ allowedOperators := by
  cases t with
  | symbol d => exact .inl (List.mem_singleton.1 hc ▸ h)
  | range lo hi =>
    obtain ⟨hlo, hhi⟩ := isSymbol_of_isRange h
    rcases List.mem_cons.1 hc with rfl | hc
    · exact .inl hlo
    · rcases List.mem_cons.1 hc with rfl | hc
      · exact .inr (by decide)
      · exact .inl (List.mem_singleton.1 hc ▸ hhi)
  | op o =>
    rw [List.mem_singleton.1 hc]
    exact .inr (by cases o <;> decide)
  | leftParen =>
    rw [List.mem_singleton.1 hc]
    exact .inr (by decide)
  | rightParen =>
    rw [List.mem_singleton.1 hc]
    exact .inr (by decide)

theorem allowed_of_mem_text {ls : List Lexeme} (h : ∀ l ∈ ls, l.Proper) {c : Char}
    (hc : c ∈ Lexeme.text ls) : isSymbol c = true ∨ c ∈ allowedOperators := by
  obtain ⟨l, hl, hc⟩ := List.mem_flatMap.1 hc
  cases l with
  | single t => exact allowed_of_proper (h _ hl) hc
  | wildcard =>
    rw [List.mem_singleton.1 hc]
    exact .inr (by decide)
  | items ts =>
    rcases List.mem_cons.1 hc with rfl | hc
    · exact .inr (by decide)
    · rcases List.mem_append.1 hc with hc | hc
      · obtain ⟨t, ht, hc⟩ := List.mem_flatMap.1 hc
        exact allowed_of_proper ((h _ hl).2 t ht).1 hc
      · rw [List.mem_singleton.1 hc]
        exact .inr (by decide)

theorem checkAlphabet_text {ls : List Lexeme} (h : ∀ l ∈ ls, l.Proper) :
    checkAlphabet (Lexeme.text ls) = .ok () := by
  unfold checkAlphabet
  split
  · next c hc =>
    have hbad := List.find?_some hc
    rw [Bool.and_eq_true, Bool.not_eq_true', Bool.not_eq_true', decide_eq_false_iff_not] at hbad
    rcases allowed_of_mem_text h (List.mem_of_find?_eq_some hc) with hmem | hmem
    · rw [hbad.1] at hmem
      cases hmem
    · exact absurd hmem hbad.2
  · rfl

end Pattern

theorem Lexeme.proper_expansion {ls : List Lexeme} (h : ∀ l ∈ ls, l.Proper) :
    ∀ t ∈ expansion ls, t.Proper := by
  intro t ht
  obtain ⟨l, hl, ht⟩ := List.mem_flatMap.1 ht
  cases l with
  | single u =>
    rw [List.mem_singleton.1 ht]
    exact h _ hl
  | wildcard =>
    refine Pattern.proper_grouped (fun u hu => ?_) t ht
    simp only [Pattern.wildcard, List.mem_cons, List.not_mem_nil, or_false] at hu
    rcases hu with rfl | rfl | rfl <;> rfl
  | items ts => exact Pattern.proper_grouped (fun u hu => ((h _ hl).2 u hu).1) t ht

end PatternAutomata
