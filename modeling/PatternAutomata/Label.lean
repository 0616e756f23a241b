import PatternAutomata.Misuse
import PatternAutomata.Scalar

/-!
# Transition labels

A label is the empty move, one character, or an inclusive range of characters.  Labels are compared
by what they are and not by what they admit: the symbol `a` and the range `a-a` are two labels.
A range whose bounds descend is a label like any other and admits nothing.

    l.admits c = true ↔ ∃ lo hi, l.bounds? = some (lo, hi) ∧ lo ≤ c ≤ hi      (admits_iff)
    parse? s = some l ↔ s = l.text ∧ l ≠ symbol ε                              (parse?_eq_some_iff)

The sign of the empty move is spelled by a character that is also a symbol, and reads as the move.
-/

namespace PatternAutomata

open StrictTotal

/-- What a transition consumes. -/
inductive Label where
  /-- Nothing. -/
  | epsilon
  /-- The character `c`. -/
  | symbol (c : Char)
  /-- Any character from `lo` to `hi`. -/
  | range (lo hi : Char)
deriving DecidableEq

namespace Label

/-- The character that stands for the empty move in text. -/
def epsilonChar : Char := 'ε'

def isEpsilon : Label → Bool
  | epsilon => true
  | _ => false

/-- Whether consuming `c` can follow a transition with this label. -/
def admits : Label → Char → Bool
  | epsilon, _ => false
  | symbol a, c => decide (a = c)
  | range lo hi, c => decide (lo.toNat ≤ c.toNat) && decide (c.toNat ≤ hi.toNat)

/-- The first and the last character, if the label consumes one at all. -/
def bounds? : Label → Option (Char × Char)
  | epsilon => none
  | symbol c => some (c, c)
  | range lo hi => some (lo, hi)

/-- Whether the bounds of two labels leave no gap between them. -/
def overlaps (l m : Label) : Bool :=
  match l.bounds?, m.bounds? with
  | some (lo, hi), some (lo', hi') =>
    decide (lo.toNat ≤ hi'.toNat) && decide (lo'.toNat ≤ hi.toNat)
  | _, _ => false

/-- The label for the characters from `lo` to `hi`: a symbol when they are one. -/
def spanning (lo hi : Char) : Label := if lo = hi then symbol lo else range lo hi

/-- The label for the characters from `lo` to `hi`, refused when there is none of them. -/
def ofBounds (lo hi : Char) : Except Misuse Label :=
  if hi.toNat < lo.toNat then .error (.emptyInterval lo hi) else .ok (spanning lo hi)

/-! ## Order -/

/-- The kind of a label and its bounds, as numbers. -/
def key : Label → Nat × Nat × Nat
  | epsilon => (0, 0, 0)
  | symbol c => (1, c.toNat, 0)
  | range lo hi => (2, lo.toNat, hi.toNat)

theorem key_inj (l m : Label) (h : key l = key m) : l = m := by
  cases l <;> cases m <;> simp_all [key, Char.toNat_inj]

/-- The empty move, then symbols by code point, then ranges by their bounds. -/
instance : StrictTotal Label := comap key key_inj

/-! ## Text -/

/-- The characters of a label's text. -/
def chars : Label → List Char
  | epsilon => [epsilonChar]
  | symbol c => [c]
  | range lo hi => [lo, '-', hi]

/-- The text of a label: its character, `lo-hi`, or the sign of the empty move. -/
def text (l : Label) : String := String.ofList l.chars

/-- The label with these characters as its text. -/
def ofChars? : List Char → Option Label
  | [c] => some (if c = epsilonChar then epsilon else symbol c)
  | [lo, dash, hi] => if dash = '-' then some (range lo hi) else none
  | _ => none

/-- The label that a text spells. -/
def parse? (s : String) : Option Label := ofChars? s.toList

/-! ## Lemmas -/

theorem admits_iff {l : Label} {c : Char} :
    l.admits c = true ↔
      ∃ lo hi, l.bounds? = some (lo, hi) ∧ lo.toNat ≤ c.toNat ∧ c.toNat ≤ hi.toNat := by
  cases l with
  | epsilon => simp [admits, bounds?]
  | symbol a =>
    simp only [admits, bounds?, decide_eq_true_eq, Option.some.injEq, Prod.mk.injEq]
    constructor
    · rintro rfl; exact ⟨a, a, ⟨rfl, rfl⟩, Nat.le_refl _, Nat.le_refl _⟩
    · rintro ⟨lo, hi, ⟨rfl, rfl⟩, h, h'⟩
      exact Char.toNat_inj.1 (Nat.le_antisymm h h')
  | range lo hi =>
    simp only [admits, bounds?, Bool.and_eq_true, decide_eq_true_eq, Option.some.injEq,
      Prod.mk.injEq]
    constructor
    · intro h; exact ⟨lo, hi, ⟨rfl, rfl⟩, h⟩
    · rintro ⟨_, _, ⟨rfl, rfl⟩, h⟩; exact h

theorem bounds?_spanning (lo hi : Char) : (spanning lo hi).bounds? = some (lo, hi) := by
  unfold spanning; split
  · next h => simp [bounds?, h]
  · rfl

theorem bounds?_eq_none_iff {l : Label} : l.bounds? = none ↔ l = epsilon := by
  cases l <;> simp [bounds?]

theorem ofChars?_eq_some_iff {cs : List Char} {l : Label} :
    ofChars? cs = some l ↔ cs = l.chars ∧ l ≠ symbol epsilonChar := by
  match cs with
  | [] => cases l <;> simp [ofChars?, chars]
  | [c] =>
    by_cases hc : c = epsilonChar <;> cases l <;> simp [ofChars?, chars, hc]
    · exact Eq.symm
    · rintro rfl; exact hc
  | [_, _] => cases l <;> simp [ofChars?, chars]
  | [lo, dash, hi] =>
    by_cases hd : dash = '-' <;> cases l <;> simp [ofChars?, chars, hd]
  | _ :: _ :: _ :: _ :: _ => cases l <;> simp [ofChars?, chars]

theorem parse?_eq_some_iff {s : String} {l : Label} :
    parse? s = some l ↔ s = l.text ∧ l ≠ symbol epsilonChar := by
  unfold parse? text
  rw [ofChars?_eq_some_iff, ← String.toList_inj, String.toList_ofList]

theorem isEpsilon_iff {l : Label} : l.isEpsilon = true ↔ l = epsilon := by
  cases l <;> simp [isEpsilon]

end Label

end PatternAutomata
