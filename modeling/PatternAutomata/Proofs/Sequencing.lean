import Mathlib.Data.List.Forall2

/-!
# Steps that may fail

A step after another succeeds when both do (`bind_eq_ok_iff`), and what each step of a fold keeps the
fold keeps (`foldlM_keeps`).  Steps none of which fails are a plain fold (`foldlM_eq_ok`).  Doing all
members of a list succeeds when each succeeds, and the results are the results of the members, one for
one; when one fails, the first to fail says how:

    l.mapM f = .ok m ↔ List.Forall₂ (fun x y => f x = .ok y) l m              (mapM_eq_ok_iff)
    error? (l.mapM f) = l.findSome? fun x => error? (f x)                     (error?_mapM)
-/

namespace PatternAutomata

theorem exists_eq_ok_of_isOk {ε α : Type} {x : Except ε α} (h : x.isOk = true) :
    ∃ a, x = .ok a := by
  cases x with
  | error e => cases h
  | ok a => exact ⟨a, rfl⟩

theorem bind_eq_ok_iff {ε α β : Type} {x : Except ε α} {f : α → Except ε β} {b : β} :
    x >>= f = .ok b ↔ ∃ a, x = .ok a ∧ f a = .ok b := by
  cases x with
  | error e =>
    constructor
    · intro h
      cases h
    · rintro ⟨_, ⟨⟩, -⟩
  | ok a =>
    constructor
    · intro h
      exact ⟨a, rfl, h⟩
    · rintro ⟨_, ⟨⟩, h⟩
      exact h

theorem bind_eq_error_iff {ε α β : Type} {x : Except ε α} {f : α → Except ε β} {e : ε} :
    x >>= f = .error e ↔ x = .error e ∨ ∃ a, x = .ok a ∧ f a = .error e := by
  cases x with
  | error e' =>
    constructor
    · rintro ⟨⟩
      exact .inl rfl
    · rintro (⟨⟨⟩⟩ | ⟨_, ⟨⟩, -⟩)
      rfl
  | ok a =>
    constructor
    · intro h
      exact .inr ⟨a, rfl, h⟩
    · rintro (⟨⟨⟩⟩ | ⟨_, ⟨⟩, h⟩)
      exact h

@[simp] theorem ok_bind {ε α β : Type} (a : α) (f : α → Except ε β) : (Except.ok a >>= f) = f a := rfl

theorem exists_bind_ok_iff {ε α β : Type} {x : Except ε α} {f : α → β} :
    (∃ b, (x >>= fun a => .ok (f a)) = .ok b) ↔ ∃ a, x = .ok a := by
  constructor
  · rintro ⟨b, h⟩
    obtain ⟨a, ha, -⟩ := bind_eq_ok_iff.1 h
    exact ⟨a, ha⟩
  · rintro ⟨a, rfl⟩
    exact ⟨f a, rfl⟩

/-! ## The error of a step -/

section Error

variable {ε α β : Type}

/-- How a step fails, if it does. -/
def error? : Except ε α → Option ε
  | .error e => some e
  | .ok _ => none

theorem error?_eq_some_iff {x : Except ε α} {e : ε} : error? x = some e ↔ x = .error e := by
  cases x <;> simp [error?]

theorem error?_eq_none_iff {x : Except ε α} : error? x = none ↔ ∃ a, x = .ok a := by
  cases x <;> simp [error?]

/-- The second step fails as `o` says whatever the first one gives. -/
theorem error?_bind {x : Except ε α} {f : α → Except ε β} {o : Option ε}
    (h : ∀ a, error? (f a) = o) : error? (x >>= f) = (error? x).or o := by
  cases x with
  | error e => rfl
  | ok a => exact h a

theorem error?_bind_ok {x : Except ε α} {f : α → β} :
    error? (x >>= fun a => .ok (f a)) = error? x := by
  rw [error?_bind (o := none) fun _ => rfl, Option.or_none]

/-- Of the members of a list the first to fail is heard. -/
theorem error?_mapM {f : α → Except ε β} {l : List α} :
    error? (l.mapM f) = l.findSome? fun x => error? (f x) := by
  induction l with
  | nil => rfl
  | cons x l ih =>
    rw [List.mapM_cons, List.findSome?_cons]
    cases f x with
    | error e => rfl
    | ok y =>
      rw [ok_bind]
      exact error?_bind_ok.trans ih

end Error

/-! ## Errors under another name -/

section MapError

variable {ε ε' α β : Type} {e : ε → ε'}

theorem mapError_eq_ok_iff {x : Except ε α} {a : α} : x.mapError e = .ok a ↔ x = .ok a := by
  cases x <;> simp [Except.mapError]

theorem mapError_eq_error_iff {x : Except ε α} {y : ε'} :
    x.mapError e = .error y ↔ ∃ z, x = .error z ∧ e z = y := by
  cases x <;> simp [Except.mapError]

theorem mapError_bind {x : Except ε α} {f : α → Except ε β} :
    (x >>= f).mapError e = x.mapError e >>= fun y => (f y).mapError e := by
  cases x <;> rfl

end MapError

/-! ## Folds -/

/-- What each step keeps, a sequence of steps keeps. -/
theorem foldlM_keeps {ε α β : Type} {f : β → α → Except ε β} {P : β → Prop} {l : List α} {b b' : β}
    (h : P b) (hf : ∀ x ∈ l, ∀ c c', P c → f c x = .ok c' → P c') (hb : l.foldlM f b = .ok b') :
    P b' := by
  induction l generalizing b with
  | nil =>
    cases hb
    exact h
  | cons x l ih =>
    rw [List.foldlM_cons] at hb
    obtain ⟨c, hc, hb⟩ := bind_eq_ok_iff.1 hb
    exact ih (hf x List.mem_cons_self b c h hc)
      (fun y hy => hf y (List.mem_cons_of_mem x hy)) hb

/-- Steps that do not fail are a fold. -/
theorem foldlM_eq_ok {ε α β : Type} {f : β → α → Except ε β} {g : β → α → β} {P : β → Prop}
    {l : List α} {b : β} (h : P b) (hf : ∀ x ∈ l, ∀ c, P c → f c x = .ok (g c x) ∧ P (g c x)) :
    l.foldlM f b = .ok (l.foldl g b) := by
  induction l generalizing b with
  | nil => rfl
  | cons x l ih =>
    obtain ⟨hstep, hkept⟩ := hf x List.mem_cons_self b h
    rw [List.foldlM_cons, hstep, ok_bind, List.foldl_cons]
    exact ih hkept fun y hy => hf y (List.mem_cons_of_mem x hy)

/-- Steps that fail in the same way, but for the name of the error. -/
theorem foldlM_mapError {ε ε' α β : Type} {e : ε → ε'} {f : β → α → Except ε β}
    {g : β → α → Except ε' β} {P : β → Prop} {l : List α} {b : β} (h : P b)
    (hg : ∀ x ∈ l, ∀ c, P c → g c x = (f c x).mapError e)
    (hf : ∀ x ∈ l, ∀ c c', P c → f c x = .ok c' → P c') :
    l.foldlM g b = (l.foldlM f b).mapError e := by
  induction l generalizing b with
  | nil => rfl
  | cons x l ih =>
    rw [List.foldlM_cons, List.foldlM_cons, mapError_bind, hg x List.mem_cons_self b h]
    cases hstep : f b x with
    | error err => rfl
    | ok c =>
      exact ih (hf x List.mem_cons_self b c h hstep) (fun y hy => hg y (List.mem_cons_of_mem x hy))
        fun y hy => hf y (List.mem_cons_of_mem x hy)

theorem forM_eq_ok {ε α : Type} {f : α → Except ε PUnit} {l : List α} (h : ∀ x ∈ l, f x = .ok ⟨⟩) :
    l.forM f = .ok ⟨⟩ := by
  induction l with
  | nil => rfl
  | cons x l ih =>
    show (f x >>= fun _ => l.forM f) = _
    rw [h x List.mem_cons_self]
    exact ih fun y hy => h y (List.mem_cons_of_mem x hy)

theorem anyM_eq_ok {ε α : Type} {f : α → Except ε Bool} {g : α → Bool} {l : List α}
    (h : ∀ x ∈ l, f x = .ok (g x)) : l.anyM f = .ok (l.any g) := by
  induction l with
  | nil => rfl
  | cons x l ih =>
    rw [List.anyM, h x List.mem_cons_self, ok_bind, List.any_cons]
    cases g x with
    | true => rfl
    | false => exact ih fun y hy => h y (List.mem_cons_of_mem x hy)

section MapM

variable {ε α β : Type} {f : α → Except ε β} {l : List α} {m : List β}

/-- A list is done with the results of its members. -/
theorem mapM_eq_ok_iff : l.mapM f = .ok m ↔ List.Forall₂ (fun x y => f x = .ok y) l m := by
  induction l generalizing m with
  | nil =>
    rw [List.forall₂_nil_left_iff, List.mapM_nil]
    exact ⟨fun h => by cases h; rfl, fun h => by rw [h]; rfl⟩
  | cons x l ih =>
    rw [List.mapM_cons, bind_eq_ok_iff, List.forall₂_cons_left_iff]
    constructor
    · rintro ⟨y, hy, h⟩
      obtain ⟨ys, hys, h⟩ := bind_eq_ok_iff.1 h
      cases h
      exact ⟨y, ys, hy, ih.1 hys, rfl⟩
    · rintro ⟨y, ys, hy, hys, rfl⟩
      exact ⟨y, hy, bind_eq_ok_iff.2 ⟨ys, ih.2 hys, rfl⟩⟩

theorem exists_mapM_eq_ok (h : ∀ x ∈ l, ∃ y, f x = .ok y) : ∃ m, l.mapM f = .ok m := by
  induction l with
  | nil => exact ⟨[], rfl⟩
  | cons x l ih =>
    obtain ⟨y, hy⟩ := h x List.mem_cons_self
    obtain ⟨ys, hys⟩ := ih fun z hz => h z (List.mem_cons_of_mem x hz)
    refine ⟨y :: ys, ?_⟩
    rw [List.mapM_cons, hy, hys]
    rfl

theorem getElem?_of_mapM_eq_ok (h : l.mapM f = .ok m) {i : Nat} {x : α} (hx : l[i]? = some x) :
    ∃ y, m[i]? = some y ∧ f x = .ok y := by
  have hall := mapM_eq_ok_iff.1 h
  obtain ⟨hi, rfl⟩ := List.getElem?_eq_some_iff.1 hx
  have hi' : i < m.length := hall.length_eq ▸ hi
  exact ⟨m[i], List.getElem?_eq_getElem hi', (List.forall₂_iff_get.1 hall).2 i hi hi'⟩

theorem mem_of_mapM_eq_ok (h : l.mapM f = .ok m) {y : β} : y ∈ m ↔ ∃ x ∈ l, f x = .ok y := by
  induction mapM_eq_ok_iff.1 h with
  | nil => simp
  | @cons x y' l m hxy hlm ih =>
    rw [List.mem_cons, ih (mapM_eq_ok_iff.2 hlm), List.exists_mem_cons_iff, hxy, Except.ok.injEq,
      eq_comm]

theorem mapM_eq_ok {g : α → β} (h : ∀ x ∈ l, f x = .ok (g x)) : l.mapM f = .ok (l.map g) := by
  rw [mapM_eq_ok_iff, List.forall₂_map_right_iff, List.forall₂_same]
  exact h

/-- A list fails as one of its members does. -/
theorem exists_of_mapM_eq_error {e : ε} (h : l.mapM f = .error e) : ∃ x ∈ l, f x = .error e := by
  induction l with
  | nil => cases h
  | cons x l ih =>
    rw [List.mapM_cons, bind_eq_error_iff] at h
    rcases h with h | ⟨y, -, h⟩
    · exact ⟨x, List.mem_cons_self, h⟩
    · rcases bind_eq_error_iff.1 h with h | ⟨ys, -, h⟩
      · obtain ⟨z, hz, hfail⟩ := ih h
        exact ⟨z, List.mem_cons_of_mem x hz, hfail⟩
      · cases h

/-- Members that are done in the same way, but for the name of the error. -/
theorem mapM_mapError {ε' : Type} {e : ε → ε'} {g : α → Except ε' β}
    (h : ∀ x ∈ l, g x = (f x).mapError e) : l.mapM g = (l.mapM f).mapError e := by
  induction l with
  | nil => rfl
  | cons x l ih =>
    rw [List.mapM_cons, List.mapM_cons, mapError_bind, h x List.mem_cons_self]
    refine congrArg _ (funext fun y => ?_)
    rw [mapError_bind, ih fun z hz => h z (List.mem_cons_of_mem x hz)]
    rfl

end MapM

end PatternAutomata
