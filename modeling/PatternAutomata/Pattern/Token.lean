import PatternAutomata.Pattern.Error

/-!
# Tokens

An explicit pattern and a postorder text are lists of tokens written one after the other.  In an
explicit pattern two symbols with a dash between them are one range token (`scan`); in a postorder
text every character is a token of its own (`scanSingly`).

    scan text = .ok ts → render ts = text              (render_scan)
    scanSingly text = .ok ts → render ts = text        (render_scanSingly)
-/

namespace PatternAutomata

/-- A unit of an explicit pattern or of a postorder text. -/
inductive Token where
  | symbol (c : Char)
  /-- Any character from `lo` to `hi`: one operand. -/
  | range (lo hi : Char)
  | op (o : Operator)
  | leftParen
  | rightParen
deriving DecidableEq

/-- The characters that stand for themselves in a pattern: ASCII letters and digits. -/
def isSymbol (c : Char) : Bool := c.isAlphanum

/-- Whether two characters bound a range: of one kind, and ascending. -/
def isRange (lo hi : Char) : Bool :=
  ((lo.isLower && hi.isLower) || (lo.isUpper && hi.isUpper) || (lo.isDigit && hi.isDigit)) &&
    decide (lo.toNat < hi.toNat)

/-- Refuses bounds that are not a range. -/
def checkRange (lo hi : Char) : Except PatternError Unit :=
  if isRange lo hi then .ok () else .error (.invalidRange lo hi)

namespace Token

/-- Whether a token is a symbol or a range. -/
def isOperand : Token → Bool
  | symbol _ | range _ _ => true
  | _ => false

/-- The characters of a token. -/
def chars : Token → List Char
  | symbol c => [c]
  | range lo hi => [lo, '-', hi]
  | op o => [o.symbol]
  | leftParen => ['(']
  | rightParen => [')']

/-- The text of a list of tokens. -/
def render (tokens : List Token) : List Char := tokens.flatMap chars

/-- The token of one character. -/
def ofChar (c : Char) : Except PatternError Token :=
  if isSymbol c then .ok (symbol c)
  else if c = '(' then .ok leftParen
  else if c = ')' then .ok rightParen
  else
    match Operator.ofSymbol? c with
    | some o => .ok (op o)
    | none => .error (.invalidSymbol c)

/-- The tokens of a text, one for each character. -/
def scanSingly (text : List Char) : Except PatternError (List Token) := text.mapM ofChar

/-- The tokens of an explicit pattern. -/
def scan : List Char → Except PatternError (List Token)
  | [] => .ok []
  | c :: dash :: hi :: rest =>
    if isSymbol c && decide (dash = '-') && isSymbol hi then do
      checkRange c hi
      let tokens ← scan rest
      .ok (range c hi :: tokens)
    else do
      let token ← ofChar c
      let tokens ← scan (dash :: hi :: rest)
      .ok (token :: tokens)
  | c :: rest => do
    let token ← ofChar c
    let tokens ← scan rest
    .ok (token :: tokens)

/-! ## Lemmas -/

@[simp] theorem render_nil : render [] = [] := rfl

@[simp] theorem render_cons (t : Token) (ts : List Token) : render (t :: ts) = t.chars ++ render ts :=
  rfl

@[simp] theorem render_append (ts us : List Token) : render (ts ++ us) = render ts ++ render us := by
  simp [render]

theorem chars_ofChar {c : Char} {t : Token} (h : ofChar c = .ok t) : t.chars = [c] := by
  unfold ofChar at h
  split at h
  · cases h; rfl
  · split at h
    · next e => cases h; simp [chars, e]
    · split at h
      · next e => cases h; simp [chars, e]
      · split at h
        · next o ho =>
          cases h
          simp [chars, Operator.ofSymbol?_eq_some_iff.1 ho]
        · cases h

theorem render_scanSingly {text : List Char} {ts : List Token} (h : scanSingly text = .ok ts) :
    render ts = text := by
  unfold scanSingly at h
  induction text generalizing ts with
  | nil => cases h; rfl
  | cons c text ih =>
    rw [List.mapM_cons] at h
    cases hc : ofChar c with
    | error e => rw [hc] at h; cases h
    | ok t =>
      cases hr : text.mapM ofChar with
      | error e => rw [hc, hr] at h; cases h
      | ok us =>
        rw [hc, hr] at h
        cases h
        rw [render_cons, chars_ofChar hc, ih hr]
        rfl

theorem render_scan {text : List Char} {ts : List Token} (h : scan text = .ok ts) :
    render ts = text := by
  fun_induction scan text generalizing ts with
  | case1 => cases h; rfl
  | case2 c dash hi rest hcond ih =>
    simp only [Bool.and_eq_true, decide_eq_true_eq] at hcond
    cases hv : checkRange c hi with
    | error e => rw [hv] at h; cases h
    | ok u =>
      cases hr : scan rest with
      | error e => rw [hv, hr] at h; cases h
      | ok us =>
        rw [hv, hr] at h
        cases h
        rw [render_cons, ih hr, hcond.1.2]
        rfl
  | case3 c dash hi rest hcond ih =>
    cases hc : ofChar c with
    | error e => rw [hc] at h; cases h
    | ok t =>
      cases hr : scan (dash :: hi :: rest) with
      | error e => rw [hc, hr] at h; cases h
      | ok us =>
        rw [hc, hr] at h
        cases h
        rw [render_cons, chars_ofChar hc, ih hr]
        rfl
  | case4 c rest hrest ih =>
    cases hc : ofChar c with
    | error e => rw [hc] at h; cases h
    | ok t =>
      cases hr : scan rest with
      | error e => rw [hc, hr] at h; cases h
      | ok us =>
        rw [hc, hr] at h
        cases h
        rw [render_cons, chars_ofChar hc, ih hr]
        rfl

end Token

end PatternAutomata
