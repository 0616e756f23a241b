import PatternAutomata.Pattern.Error

/-!
# Levels of operators

A table gives operators a level; a lower level binds tighter.  An operator without a level cannot
be used.
-/

namespace PatternAutomata

/-- The level of each operator that has one. -/
structure Precedence where
  level? : Operator → Option Nat

namespace Precedence

/-- No operator has a level. -/
def empty : Precedence := ⟨fun _ => none⟩

/-- Sets the level of an operator. -/
def insert (p : Precedence) (o : Operator) (level : Nat) : Precedence :=
  ⟨fun o' => if o' = o then some level else p.level? o'⟩

/-- The table with these levels; of several for one operator, the last. -/
def ofList (levels : List (Operator × Nat)) : Precedence :=
  levels.foldl (fun p e => p.insert e.1 e.2) empty

/-- Repetition and ranges bind tightest, then concatenation, then alternation. -/
def standard : Precedence :=
  ofList [(.star, 0), (.plus, 0), (.optional, 0), (.range, 0), (.concat, 1), (.alternation, 2)]

/-- Whether two tables give the same levels. -/
def agrees (p q : Precedence) : Bool := Operator.all.all fun o => decide (p.level? o = q.level? o)

@[simp] theorem level?_insert (p : Precedence) (o o' : Operator) (level : Nat) :
    (p.insert o level).level? o' = if o' = o then some level else p.level? o' := rfl

theorem agrees_iff {p q : Precedence} : p.agrees q = true ↔ p = q := by
  obtain ⟨p⟩ := p
  obtain ⟨q⟩ := q
  rw [agrees, List.all_eq_true, mk.injEq]
  constructor
  · intro h
    funext o
    exact of_decide_eq_true (h o (by cases o <;> simp [Operator.all]))
  · rintro rfl o _
    exact decide_eq_true rfl

end Precedence

end PatternAutomata
