import PatternAutomata.Pattern.Token
import PatternAutomata.Proofs.Sequencing

/-!
# Tokens are found again in their text

Text written from tokens is read back as the same tokens, as long as symbols are symbols, ranges are
ranges, and no dash is put where it would be taken for part of a range:

    scan (render ts) = .ok ts ↔ ts legible                                   (scan_render_iff)
    ts proper → scan (render ts) = .ok ts                                    (scan_render)
    ts of one character each → scanSingly (render ts) = .ok ts               (scanSingly_render)

What is read from a text has symbols for symbols and ranges for ranges again (`spelled_of_scan`,
`single_of_scanSingly`).
-/

namespace PatternAutomata

/-! ## Characters by kind -/

theorem ne_of_isSymbol {c d : Char} (hc : isSymbol c = true) (hd : isSymbol d = false) : c ≠ d := by
  rintro rfl
  rw [hc] at hd
  cases hd

theorem isAlpha_iff {c : Char} : c.isAlpha = true ↔ c.isUpper = true ∨ c.isLower = true :=
  Bool.or_eq_true_iff

theorem isUpper_iff {c : Char} : c.isUpper = true ↔ 65 ≤ c.toNat ∧ c.toNat ≤ 90 :=
  decide_eq_true_iff

theorem isLower_iff {c : Char} : c.isLower = true ↔ 97 ≤ c.toNat ∧ c.toNat ≤ 122 :=
  Bool.and_eq_true_iff.trans (and_congr decide_eq_true_iff decide_eq_true_iff)

theorem isDigit_iff {c : Char} : c.isDigit = true ↔ 48 ≤ c.toNat ∧ c.toNat ≤ 57 :=
  Bool.and_eq_true_iff.trans (and_congr decide_eq_true_iff decide_eq_true_iff)

theorem isSymbol_iff {c : Char} :
    isSymbol c = true ↔ (c.isUpper = true ∨ c.isLower = true) ∨ c.isDigit = true :=
  Bool.or_eq_true_iff.trans (or_congr_left isAlpha_iff)

theorem isRange_iff {lo hi : Char} :
    isRange lo hi = true ↔
      ((lo.isLower = true ∧ hi.isLower = true ∨ lo.isUpper = true ∧ hi.isUpper = true) ∨
        lo.isDigit = true ∧ hi.isDigit = true) ∧ lo.toNat < hi.toNat := by
  simp only [isRange, Bool.and_eq_true, Bool.or_eq_true, decide_eq_true_eq]

theorem isSymbol_of_isRange {lo hi : Char} (h : isRange lo hi = true) :
    isSymbol lo = true ∧ isSymbol hi = true := by
  rw [isSymbol_iff, isSymbol_iff]
  rcases (isRange_iff.1 h).1 with (h | h) | h
  · exact ⟨.inl (.inr h.1), .inl (.inr h.2)⟩
  · exact ⟨.inl (.inl h.1), .inl (.inl h.2)⟩
  · exact ⟨.inr h.1, .inr h.2⟩

theorem checkRange_eq_ok_iff {lo hi : Char} : checkRange lo hi = .ok () ↔ isRange lo hi = true := by
  unfold checkRange
  split
  · next h => simp [h]
  · next h => simp [h]

namespace Token

/-- Whether a token can stand in an explicit pattern. -/
def Proper : Token → Prop
  | symbol c => isSymbol c = true
  | range lo hi => isRange lo hi = true
  | op o => o ≠ .range
  | leftParen | rightParen => True

/-- Whether a token is a character of a postorder text. -/
def Single : Token → Prop
  | symbol c => isSymbol c = true
  | range _ _ => False
  | _ => True

/-- Whether the characters of a token that stand for themselves are symbols. -/
def Spelled : Token → Prop
  | symbol c => isSymbol c = true
  | range lo hi => isRange lo hi = true
  | _ => True

theorem Proper.spelled {t : Token} (h : t.Proper) : t.Spelled := by
  cases t <;> first | exact h | trivial

theorem Single.spelled {t : Token} (h : t.Single) : t.Spelled := by
  cases t <;> first | exact h | trivial

theorem ofChar_symbol {c : Char} (h : isSymbol c = true) : ofChar c = .ok (symbol c) := by
  unfold ofChar
  rw [if_pos h]

theorem ofChar_op (o : Operator) : ofChar o.symbol = .ok (op o) := by
  cases o <;> rfl

/-- The dash begins the text of no proper token. -/
theorem head?_render_ne {ts : List Token} (h : ∀ t ∈ ts, t.Proper) :
    (render ts).head? ≠ some '-' := by
  cases ts with
  | nil => simp
  | cons t ts =>
    have ht := h t List.mem_cons_self
    cases t with
    | symbol c => simpa [chars] using ne_of_isSymbol (d := '-') ht rfl
    | range lo hi => simpa [chars] using ne_of_isSymbol (d := '-') (isSymbol_of_isRange ht).1 rfl
    | op o => cases o <;> first | exact absurd rfl ht | simp [chars, Operator.symbol]
    | leftParen => simp [chars]
    | rightParen => simp [chars]

/-! ## Reading ranges -/

theorem scan_range {lo hi : Char} (h : isRange lo hi = true) (p : List Char) :
    scan (lo :: '-' :: hi :: p) = (scan p).map (range lo hi :: ·) := by
  obtain ⟨hlo, hhi⟩ := isSymbol_of_isRange h
  rw [scan, if_pos (by simp [hlo, hhi]), checkRange_eq_ok_iff.2 h]
  rfl

/-- A character that begins no range is a token of its own. -/
theorem scan_cons {c : Char} {t : Token} (h : ofChar c = .ok t) {p : List Char}
    (hp : ∀ hi q, p = '-' :: hi :: q → isSymbol c = true → isSymbol hi = false) :
    scan (c :: p) = (scan p).map (t :: ·) := by
  match p with
  | [] =>
    unfold scan
    rw [h]
    rfl
  | [d] =>
    rw [scan.eq_def]
    dsimp only
    rw [h]
    rfl
  | d :: e :: p =>
    have hcond : ¬(isSymbol c && decide (d = '-') && isSymbol e) = true := by
      simp only [Bool.and_eq_true, decide_eq_true_eq]
      rintro ⟨⟨hc, rfl⟩, he⟩
      rw [hp e p rfl hc] at he
      cases he
    rw [scan, if_neg hcond, h]
    rfl

theorem isOperand_of_render_cons {t : Token} {ts : List Token} {c : Char} {p : List Char}
    (h : render (t :: ts) = c :: p) (hc : isSymbol c = true) : t.isOperand = true := by
  cases t with
  | symbol _ => rfl
  | range _ _ => rfl
  | op o =>
    rw [← (List.cons.inj h).1] at hc
    cases o <;> exact absurd hc (by decide)
  | leftParen =>
    rw [← (List.cons.inj h).1] at hc
    exact absurd hc (by decide)
  | rightParen =>
    rw [← (List.cons.inj h).1] at hc
    exact absurd hc (by decide)

theorem render_cons_of_isOperand {t : Token} (ht : t.Spelled) (hop : t.isOperand = true)
    (ts : List Token) : ∃ c p, render (t :: ts) = c :: p ∧ isSymbol c = true := by
  cases t with
  | symbol c => exact ⟨c, _, rfl, ht⟩
  | range lo hi => exact ⟨lo, _, rfl, (isSymbol_of_isRange ht).1⟩
  | _ => cases hop

/-- A text that begins with a dash was written from the range operator. -/
theorem exists_of_render_dash {ts : List Token} (h : ∀ t ∈ ts, t.Spelled) {p : List Char}
    (hr : render ts = '-' :: p) : ∃ us, ts = op .range :: us ∧ render us = p := by
  cases ts with
  | nil => cases hr
  | cons t ts =>
    have ht := h t List.mem_cons_self
    cases t with
    | symbol c => exact absurd (List.cons.inj hr).1 (ne_of_isSymbol ht rfl)
    | range lo hi =>
      exact absurd (List.cons.inj hr).1 (ne_of_isSymbol (isSymbol_of_isRange ht).1 rfl)
    | op o =>
      obtain ⟨hhead, htail⟩ := List.cons.inj hr
      cases o <;> first | exact absurd hhead (by decide) | exact ⟨ts, rfl, htail⟩
    | leftParen => exact absurd (List.cons.inj hr).1 (by decide)
    | rightParen => exact absurd (List.cons.inj hr).1 (by decide)

/-! ## Lists of tokens that a text can carry -/

/-- Whether tokens can be found again in their text: operands are symbols and ranges, and no dash of its
own stands between a symbol and an operand, where it would be read as part of a range. -/
structure Legible (ts : List Token) : Prop where
  spelled : ∀ t ∈ ts, t.Spelled
  apart : ∀ c t, t.isOperand = true → ¬ [symbol c, op .range, t] <:+: ts

theorem Legible.tail {t : Token} {ts : List Token} (h : Legible (t :: ts)) : Legible ts :=
  ⟨fun u hu => h.spelled u (List.mem_cons_of_mem t hu),
    fun c u hu hinfix => h.apart c u hu (List.infix_cons hinfix)⟩

theorem Legible.cons {t : Token} {ts : List Token} (ht : t.Spelled)
    (hfirst : ∀ c u us, t = symbol c → ts = op .range :: u :: us → u.isOperand = false)
    (h : Legible ts) : Legible (t :: ts) := by
  refine ⟨List.forall_mem_cons.2 ⟨ht, h.spelled⟩, fun c u hu hinfix => ?_⟩
  rcases List.infix_cons_iff.1 hinfix with ⟨us, hus⟩ | hinfix
  · obtain ⟨rfl, rfl⟩ := List.cons.inj hus
    rw [hfirst c u us rfl rfl] at hu
    cases hu
  · exact h.apart c u hu hinfix

/-- Proper tokens leave no dash of its own. -/
theorem legible_of_proper {ts : List Token} (h : ∀ t ∈ ts, t.Proper) : Legible ts := by
  refine ⟨fun t ht => (h t ht).spelled, fun c t _ hinfix => ?_⟩
  have hmem : op .range ∈ ts := hinfix.subset (by simp)
  exact h _ hmem rfl

theorem scan_render_of_legible {ts : List Token} (h : Legible ts) : scan (render ts) = .ok ts := by
  induction ts with
  | nil => rfl
  | cons t ts ih =>
    have hts := ih h.tail
    have ht := h.spelled t List.mem_cons_self
    have key : ∀ p, scan p = (scan (render ts)).map (t :: ·) → scan p = .ok (t :: ts) := by
      intro p hp
      rw [hp, hts]
      rfl
    rw [render_cons]
    apply key
    cases t with
    | symbol c =>
      refine scan_cons (ofChar_symbol ht) fun hi q hq _ => ?_
      obtain ⟨us, rfl, hus⟩ := exists_of_render_dash h.tail.spelled hq
      cases us with
      | nil => cases hus
      | cons u us =>
        -- An operand behind the dash is what a legible list does not have.
        refine Bool.eq_false_iff.2 fun hhi => ?_
        exact h.apart c u (isOperand_of_render_cons hus hhi) ⟨[], us, rfl⟩
    | range lo hi => exact scan_range ht _
    | op o =>
      refine scan_cons (ofChar_op o) fun _ _ _ ho => ?_
      cases o <;> exact absurd ho (by decide)
    | leftParen => exact scan_cons (c := '(') rfl fun _ _ _ ho => absurd ho (by decide)
    | rightParen => exact scan_cons (c := ')') rfl fun _ _ _ ho => absurd ho (by decide)

theorem scan_render {ts : List Token} (h : ∀ t ∈ ts, t.Proper) : scan (render ts) = .ok ts :=
  scan_render_of_legible (legible_of_proper h)

theorem scanSingly_render {ts : List Token} (h : ∀ t ∈ ts, t.Single) :
    scanSingly (render ts) = .ok ts := by
  have key : ∀ {c : Char} {t : Token} {p : List Char} {us : List Token}, ofChar c = .ok t →
      scanSingly p = .ok us → scanSingly (c :: p) = .ok (t :: us) := by
    intro c t p us hc hp
    unfold scanSingly at hp ⊢
    rw [List.mapM_cons, hc, hp]
    rfl
  induction ts with
  | nil => rfl
  | cons t ts ih =>
    have hts := ih fun u hu => h u (List.mem_cons_of_mem _ hu)
    have ht := h t List.mem_cons_self
    rw [render_cons]
    cases t with
    | symbol c => exact key (ofChar_symbol ht) hts
    | range lo hi => exact absurd ht id
    | op o => exact key (ofChar_op o) hts
    | leftParen => exact key (c := '(') rfl hts
    | rightParen => exact key (c := ')') rfl hts

theorem single_of_ofChar {c : Char} {t : Token} (h : ofChar c = .ok t) : t.Single := by
  unfold ofChar at h
  split at h
  · next hc =>
    cases h
    exact hc
  · repeat' split at h
    all_goals first | cases h; trivial | cases h

/-- What is read from a text can be found again in it. -/
theorem legible_of_scan {text : List Char} {ts : List Token} (h : scan text = .ok ts) :
    Legible ts := by
  fun_induction scan text generalizing ts with
  | case1 =>
    cases h
    exact ⟨fun t ht => (by cases ht), fun c t _ hinfix => by simp at hinfix⟩
  | case2 c dash hi rest hcond ih =>
    obtain ⟨⟨⟩, hrange, h⟩ := bind_eq_ok_iff.1 h
    obtain ⟨us, hus, h⟩ := bind_eq_ok_iff.1 h
    cases h
    exact .cons (checkRange_eq_ok_iff.1 hrange) (fun _ _ _ e => by cases e) (ih hus)
  | case3 c dash hi rest hcond ih =>
    obtain ⟨t, ht, h⟩ := bind_eq_ok_iff.1 h
    obtain ⟨us, hus, h⟩ := bind_eq_ok_iff.1 h
    cases h
    have hsingle := single_of_ofChar ht
    refine .cons hsingle.spelled ?_ (ih hus)
    rintro d u vs rfl rfl
    refine Bool.eq_false_iff.2 fun hu => hcond ?_
    -- Three characters of a range would have been read as one token.
    obtain ⟨e, q, hq, he⟩ := render_cons_of_isOperand ((ih hus).spelled u (by simp)) hu vs
    have htext := render_scan hus
    rw [render_cons, hq] at htext
    cases htext
    cases chars_ofChar ht
    have hdash : decide (Operator.range.symbol = '-') = true := rfl
    rw [hdash, he, Bool.and_true, Bool.and_true]
    exact hsingle
  | case4 c rest hrest ih =>
    obtain ⟨t, ht, h⟩ := bind_eq_ok_iff.1 h
    obtain ⟨us, hus, h⟩ := bind_eq_ok_iff.1 h
    cases h
    refine .cons (single_of_ofChar ht).spelled ?_ (ih hus)
    rintro d u vs rfl rfl
    refine Bool.eq_false_iff.2 fun hu => ?_
    obtain ⟨e, q, hq, -⟩ := render_cons_of_isOperand ((ih hus).spelled u (by simp)) hu vs
    have htext := render_scan hus
    rw [render_cons, hq] at htext
    exact hrest '-' e q htext.symm

theorem spelled_of_scan {text : List Char} {ts : List Token} (h : scan text = .ok ts) :
    ∀ t ∈ ts, t.Spelled := (legible_of_scan h).spelled

theorem scan_render_iff {ts : List Token} : scan (render ts) = .ok ts ↔ Legible ts :=
  ⟨legible_of_scan, scan_render_of_legible⟩

theorem single_of_scanSingly {text : List Char} {ts : List Token} (h : scanSingly text = .ok ts) :
    ∀ t ∈ ts, t.Single := by
  intro t ht
  obtain ⟨c, -, hc⟩ := (mem_of_mapM_eq_ok h).1 ht
  exact single_of_ofChar hc

end Token

end PatternAutomata
