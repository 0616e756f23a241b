import PatternAutomata.Order.Basic
import Std.Data.TreeMap.Lemmas

/-!
# Numbers for keys

A `Numbering` gives each key that it meets the next number, from 0 on, and keeps that number when
the key comes again:

    (n.add k).keys = n.keys            if k has a number
    (n.add k).keys = n.keys.push k     if it has none

The two directions, from a number to its key and back, undo each other (`find?_eq_some_iff`).
-/

namespace PatternAutomata

open StrictTotal

namespace StrictTotal

variable {α : Type} [StrictTotal α]

theorem isLE_compare_iff {a b : α} : (compare a b).isLE = true ↔ ¬ lt b a := by
  unfold compare
  split
  · next h => simp [not_lt_of_lt h]
  · split <;> simp [*]

/-- Three-way comparison orders keys. -/
instance instTransCmp : Std.TransCmp (compare : α → α → Ordering) where
  eq_swap := by
    intro a b
    unfold compare
    split
    · next h => simp [not_lt_of_lt h]
    · split <;> rfl
  isLE_trans := by
    intro a b c h h'
    rw [isLE_compare_iff] at *
    intro hca
    by_cases e : a = b
    · exact h' (e ▸ hca)
    · exact h' (trans hca (lt_of_not_lt_of_ne h e))

end StrictTotal

/-- Keys in the order in which they were met, and the number of each. -/
structure Numbering (κ : Type) [StrictTotal κ] where
  keys : Array κ
  index : Std.TreeMap κ Nat compare
  agrees : ∀ (k : κ) (i : Nat), index[k]? = some i ↔ keys[i]? = some k

namespace Numbering

variable {κ : Type} [StrictTotal κ]

/-- No key has a number. -/
def empty : Numbering κ := ⟨#[], ∅, by simp⟩

/-- The number of a key. -/
def find? (n : Numbering κ) (k : κ) : Option Nat := n.index[k]?

theorem find?_eq_some_iff {n : Numbering κ} {k : κ} {i : Nat} :
    n.find? k = some i ↔ n.keys[i]? = some k := n.agrees k i

theorem find?_eq_none_iff {n : Numbering κ} {k : κ} : n.find? k = none ↔ k ∉ n.keys := by
  rw [Option.eq_none_iff_forall_ne_some, Array.mem_iff_getElem?, not_exists]
  exact forall_congr' fun i => not_congr find?_eq_some_iff

theorem agrees_push {keys : Array κ} {index : Std.TreeMap κ Nat compare}
    (agrees : ∀ (k : κ) (i : Nat), index[k]? = some i ↔ keys[i]? = some k) {k : κ} (h : index[k]? = none)
    (k' : κ) (i : Nat) :
    (index.insert k keys.size)[k']? = some i ↔ (keys.push k)[i]? = some k' := by
  rw [Std.TreeMap.getElem?_insert, Array.getElem?_push]
  by_cases hk : k = k'
  · subst hk
    have fresh : ∀ j, keys[j]? ≠ some k := fun j e => by
      rw [(agrees k j).2 e] at h
      cases h
    rw [if_pos (compare_eq_eq_iff.2 rfl), Option.some.injEq]
    constructor
    · rintro rfl
      rw [if_pos rfl]
    · intro e
      split at e
      · next hi => exact hi.symm
      · exact absurd e (fresh i)
  · rw [if_neg fun e => hk (compare_eq_eq_iff.1 e), agrees]
    split
    · next hi =>
      subst hi
      rw [Array.getElem?_eq_none (Nat.le_refl _)]
      simp [hk]
    · exact Iff.rfl

/-- Gives `k` the next number, unless it has one. -/
def add : Numbering κ → κ → Numbering κ
  | ⟨keys, index, agrees⟩, k =>
    if h : index[k]? = none then ⟨keys.push k, index.insert k keys.size, agrees_push agrees h⟩
    else ⟨keys, index, agrees⟩

theorem keys_add_of_mem {n : Numbering κ} {k : κ} (h : k ∈ n.keys) : (n.add k).keys = n.keys := by
  have e : n.index[k]? ≠ none := fun e => find?_eq_none_iff.1 e h
  unfold add
  split
  exact congrArg keys (dif_neg e)

theorem keys_add_of_not_mem {n : Numbering κ} {k : κ} (h : k ∉ n.keys) :
    (n.add k).keys = n.keys.push k := by
  have e : n.index[k]? = none := find?_eq_none_iff.2 h
  unfold add
  split
  exact congrArg keys (dif_pos e)

end Numbering

end PatternAutomata
