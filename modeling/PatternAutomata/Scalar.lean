import PatternAutomata.Order.Basic

/-!
# Characters counted without a gap

A character is a code point outside the surrogates D800 to DFFF.  `ordinal` numbers the characters
0, 1, 2, … in code point order without that gap, so that neighbouring characters have neighbouring
ordinals:

    next? c = some d ↔ ordinal d = ordinal c + 1      (next?_eq_some_iff)
    prev? d = some c ↔ ordinal d = ordinal c + 1      (prev?_eq_some_iff)
-/

namespace PatternAutomata.Scalar

/-- Number of characters. -/
def count : Nat := 0x10F800

/-- The place of a character among all characters, from 0. -/
def ordinal (c : Char) : Nat := if c.toNat < 0xD800 then c.toNat else c.toNat - 0x800

/-- The character at a place. -/
def ofOrdinal (n : Nat) : Char := Char.ofNat (if n < 0xD800 then n else n + 0x800)

/-- The last character. -/
def last : Char := Char.ofNat 0x10FFFF

/-- The character after `c`. -/
def next? (c : Char) : Option Char :=
  if ordinal c + 1 < count then some (ofOrdinal (ordinal c + 1)) else none

/-- The character before `c`. -/
def prev? (c : Char) : Option Char :=
  if ordinal c = 0 then none else some (ofOrdinal (ordinal c - 1))

/-! ## Characters and ordinals -/

theorem toNat_valid (c : Char) : c.toNat < 0xD800 ∨ 0xDFFF < c.toNat ∧ c.toNat < 0x110000 :=
  c.valid

theorem ordinal_lt_count (c : Char) : ordinal c < count := by
  have := toNat_valid c
  unfold ordinal count; split <;> omega

theorem toNat_ofNat {n : Nat} (h : n < 0xD800 ∨ 0xDFFF < n ∧ n < 0x110000) :
    (Char.ofNat n).toNat = n := by
  have hv : n.isValidChar := h
  rw [Char.ofNat, dif_pos hv]
  rfl

theorem ordinal_ofOrdinal {n : Nat} (h : n < count) : ordinal (ofOrdinal n) = n := by
  unfold count at h
  unfold ordinal ofOrdinal
  rw [toNat_ofNat (by split <;> omega)]
  by_cases hn : n < 0xD800
  · simp [hn]
  · simp only [hn, if_false]; split <;> omega

theorem ofOrdinal_ordinal (c : Char) : ofOrdinal (ordinal c) = c := by
  have hc := toNat_valid c
  have : (if ordinal c < 0xD800 then ordinal c else ordinal c + 0x800) = c.toNat := by
    unfold ordinal
    by_cases hn : c.toNat < 0xD800
    · simp [hn]
    · simp only [hn, if_false]; split <;> omega
  rw [ofOrdinal, this, Char.ofNat_toNat]

theorem ordinal_inj {c d : Char} : ordinal c = ordinal d ↔ c = d :=
  ⟨fun h => by rw [← ofOrdinal_ordinal c, h, ofOrdinal_ordinal], congrArg _⟩

theorem ordinal_lt_iff {c d : Char} : ordinal c < ordinal d ↔ c.toNat < d.toNat := by
  have hc := toNat_valid c
  have hd := toNat_valid d
  unfold ordinal; split <;> split <;> omega

theorem ordinal_le_iff {c d : Char} : ordinal c ≤ ordinal d ↔ c.toNat ≤ d.toNat := by
  have := @ordinal_lt_iff d c
  omega

theorem ordinal_last : ordinal last = count - 1 := by
  unfold ordinal last; rw [toNat_ofNat (by omega)]; rfl

theorem ordinal_le_last (c : Char) : ordinal c ≤ ordinal last := by
  have := ordinal_lt_count c
  rw [ordinal_last]; omega

/-! ## Neighbours -/

theorem next?_eq_some_iff {c d : Char} : next? c = some d ↔ ordinal d = ordinal c + 1 := by
  unfold next?
  split
  · next h =>
    rw [Option.some.injEq, ← ordinal_inj, ordinal_ofOrdinal h]
    exact eq_comm
  · next h =>
    have := ordinal_lt_count d
    simp; omega

theorem next?_eq_none_iff {c : Char} : next? c = none ↔ c = last := by
  have := ordinal_lt_count c
  have hl := ordinal_last
  unfold next?
  rw [← ordinal_inj]
  split <;> simp <;> omega

theorem prev?_eq_some_iff {c d : Char} : prev? d = some c ↔ ordinal d = ordinal c + 1 := by
  have := ordinal_lt_count d
  unfold prev?
  split
  · next h => simp; omega
  · next h =>
    rw [Option.some.injEq, ← ordinal_inj, ordinal_ofOrdinal (by omega)]
    omega

end PatternAutomata.Scalar
