import PatternAutomata.Order.Basic

/-!
# Finite maps as lists of entries with ascending keys

An `OrderedMap` holds one entry a key, in the order of the keys.  Writing a key again replaces its
value, so of a list of entries the last one for each key stays (`ofList`):

    (m.insert k v).get? k' = if k' = k then some v else m.get? k'     (get?_insert)
    (m.erase k).get? k' = if k' = k then none else m.get? k'          (get?_erase)
    (ofList l).get? k = some v ↔ (k, v) is the last entry with key k  (get?_ofList_eq_some_iff)
    (k, v) ∈ (ofList l).entries ↔ (k, v) ∈ l, when no key is twice    (mem_entries_ofList)
    m = n ↔ ∀ k, m.get? k = n.get? k                                 (ext_iff)
-/

namespace PatternAutomata

open StrictTotal

/-- A finite map, kept as its entries in ascending order of their keys. -/
structure OrderedMap (κ : Type) [StrictTotal κ] (β : Type) where
  entries : List (κ × β)
  ascending : entries.Pairwise fun e f => lt e.1 f.1

namespace OrderedMap

variable {κ β γ : Type} [StrictTotal κ]

theorem eq_of_entries_eq {m n : OrderedMap κ β} (h : m.entries = n.entries) : m = n := by
  cases m; cases n; cases h; rfl

instance [DecidableEq κ] [DecidableEq β] : DecidableEq (OrderedMap κ β) := fun m n =>
  decidable_of_iff (m.entries = n.entries) ⟨eq_of_entries_eq, congrArg _⟩

/-- The map without entries. -/
def empty : OrderedMap κ β := ⟨[], .nil⟩

/-- The keys, ascending. -/
def keys (m : OrderedMap κ β) : List κ := m.entries.map Prod.fst

/-- Puts an entry at its place in an ascending list, in place of an entry with the same key. -/
def insertAscending (k : κ) (v : β) : List (κ × β) → List (κ × β)
  | [] => [(k, v)]
  | e :: es =>
    if lt k e.1 then (k, v) :: e :: es
    else if lt e.1 k then e :: insertAscending k v es
    else (k, v) :: es

theorem mem_keys_insertAscending {x k : κ} {v : β} {l : List (κ × β)} :
    x ∈ (insertAscending k v l).map Prod.fst ↔ x = k ∨ x ∈ l.map Prod.fst := by
  induction l with
  | nil => simp [insertAscending]
  | cons e es ih =>
    unfold insertAscending
    split
    · simp
    · next h =>
      split
      · rw [List.map_cons, List.map_cons, List.mem_cons, List.mem_cons, ih]
        exact or_left_comm
      · next h' =>
        have e' : k = e.1 := eq_of_not_lt h h'
        simp [← e']

theorem pairwise_insertAscending {k : κ} {v : β} {l : List (κ × β)}
    (h : l.Pairwise fun e f => lt e.1 f.1) :
    (insertAscending k v l).Pairwise fun e f => lt e.1 f.1 := by
  induction l with
  | nil => simp [insertAscending]
  | cons e es ih =>
    obtain ⟨he, hes⟩ := List.pairwise_cons.1 h
    unfold insertAscending
    split
    · next hke =>
      refine List.pairwise_cons.2 ⟨fun x hx => ?_, h⟩
      rcases List.mem_cons.1 hx with rfl | hx
      · exact hke
      · exact trans hke (he x hx)
    · next hke =>
      split
      · next hek =>
        refine List.pairwise_cons.2 ⟨fun x hx => ?_, ih hes⟩
        have hx' := mem_keys_insertAscending.1 (List.mem_map_of_mem (f := Prod.fst) hx)
        rcases hx' with e' | hx'
        · exact e' ▸ hek
        · obtain ⟨y, hy, e'⟩ := List.mem_map.1 hx'
          exact e' ▸ he y hy
      · next hek =>
        have e' : k = e.1 := eq_of_not_lt hke hek
        exact List.pairwise_cons.2 ⟨fun x hx => e' ▸ he x hx, hes⟩

/-- The map with the value of `k` set to `v`. -/
def insert (k : κ) (v : β) (m : OrderedMap κ β) : OrderedMap κ β :=
  ⟨insertAscending k v m.entries, pairwise_insertAscending m.ascending⟩

/-- The map without the entry of `k`. -/
def erase [DecidableEq κ] (k : κ) (m : OrderedMap κ β) : OrderedMap κ β :=
  ⟨m.entries.filter fun e => decide (e.1 ≠ k), m.ascending.filter _⟩

/-- The map with these entries; of several with one key, the last. -/
def ofList (l : List (κ × β)) : OrderedMap κ β := l.foldl (fun m e => m.insert e.1 e.2) empty

/-- The value of a key. -/
def get? [DecidableEq κ] (m : OrderedMap κ β) (k : κ) : Option β :=
  (m.entries.find? fun e => decide (e.1 = k)).map Prod.snd

/-! ## Look-up -/

@[simp] theorem get?_empty [DecidableEq κ] (k : κ) : (empty : OrderedMap κ β).get? k = none := rfl

theorem get?_eq_some_iff [DecidableEq κ] {m : OrderedMap κ β} {k : κ} {v : β} :
    m.get? k = some v ↔ (k, v) ∈ m.entries := by
  obtain ⟨l, h⟩ := m
  unfold get?
  induction l with
  | nil => simp
  | cons e es ih =>
    obtain ⟨he, hes⟩ := List.pairwise_cons.1 h
    rw [List.find?_cons]
    by_cases hk : e.1 = k
    · simp only [hk, decide_true, Option.map_some, Option.some.injEq, List.mem_cons]
      constructor
      · rintro rfl; exact .inl (by rw [← hk])
      · rintro (h' | h')
        · rw [← h']
        · exact absurd (he _ h') (by rw [hk]; exact irrefl k)
    · simp only [hk, decide_false, List.mem_cons]
      rw [ih hes]
      exact ⟨.inr, fun h' => h'.resolve_left fun e' => hk (by rw [← e'])⟩

theorem mem_insertAscending_self {k : κ} {v : β} {l : List (κ × β)} :
    (k, v) ∈ insertAscending k v l := by
  induction l with
  | nil => simp [insertAscending]
  | cons e es ih =>
    unfold insertAscending
    split
    · simp
    · split
      · exact List.mem_cons_of_mem _ ih
      · simp

theorem mem_insertAscending_of_ne {k k' : κ} {v v' : β} {l : List (κ × β)} (hne : k' ≠ k) :
    (k', v') ∈ insertAscending k v l ↔ (k', v') ∈ l := by
  induction l with
  | nil => simp [insertAscending, hne]
  | cons e es ih =>
    unfold insertAscending
    split
    · simp [hne]
    · next h =>
      split
      · simp [ih]
      · next h' =>
        have e' : k = e.1 := eq_of_not_lt h h'
        constructor
        · intro hm
          rcases List.mem_cons.1 hm with hm | hm
          · exact absurd (congrArg Prod.fst hm) hne
          · exact List.mem_cons_of_mem _ hm
        · intro hm
          rcases List.mem_cons.1 hm with hm | hm
          · exact absurd ((congrArg Prod.fst hm).trans e'.symm) hne
          · exact List.mem_cons_of_mem _ hm

@[simp] theorem get?_insert [DecidableEq κ] (k k' : κ) (v : β) (m : OrderedMap κ β) :
    (m.insert k v).get? k' = if k' = k then some v else m.get? k' := by
  split
  · next h => subst h; exact get?_eq_some_iff.2 mem_insertAscending_self
  · next h =>
    exact Option.ext fun w => by
      rw [get?_eq_some_iff, get?_eq_some_iff]; exact mem_insertAscending_of_ne h

@[simp] theorem get?_erase [DecidableEq κ] (k k' : κ) (m : OrderedMap κ β) :
    (m.erase k).get? k' = if k' = k then none else m.get? k' := by
  refine Option.ext fun v => ?_
  rw [get?_eq_some_iff, erase, List.mem_filter, decide_eq_true_eq, ← get?_eq_some_iff]
  split
  · next h => simp [h]
  · next h => exact and_iff_left h

/-! ## Entries -/

theorem nodup_keys (m : OrderedMap κ β) : m.keys.Nodup :=
  (List.pairwise_map.2 m.ascending).imp StrictTotal.ne_of_lt

theorem mem_keys {m : OrderedMap κ β} {k : κ} : k ∈ m.keys ↔ ∃ v, (k, v) ∈ m.entries := by
  simp [keys]

/-- The last entry with a key is the one that stays. -/
theorem get?_ofList [DecidableEq κ] (l : List (κ × β)) (k : κ) :
    (ofList l).get? k = (l.reverse.find? fun e => decide (e.1 = k)).map Prod.snd := by
  have key : ∀ m : OrderedMap κ β, (l.foldl (fun m e => m.insert e.1 e.2) m).get? k =
      ((l.reverse.find? fun e => decide (e.1 = k)).map Prod.snd).or (m.get? k) := by
    induction l with
    | nil => exact fun _ => rfl
    | cons e l ih =>
      intro m
      rw [List.foldl_cons, ih, get?_insert, List.reverse_cons, List.find?_append, Option.map_or,
        Option.or_assoc]
      by_cases hk : k = e.1
      · simp [hk]
      · simp [hk, Ne.symm hk]
  rw [ofList, key, get?_empty, Option.or_none]

theorem get?_ofList_eq_some_iff [DecidableEq κ] {l : List (κ × β)} {k : κ} {v : β} :
    (ofList l).get? k = some v ↔ ∃ l₁ l₂, l = l₁ ++ (k, v) :: l₂ ∧ ∀ e ∈ l₂, e.1 ≠ k := by
  rw [get?_ofList, Option.map_eq_some_iff]
  constructor
  · rintro ⟨⟨k', v'⟩, hfind, rfl⟩
    obtain ⟨hk, l₂, l₁, hl, hbehind⟩ := List.find?_eq_some_iff_append.1 hfind
    cases of_decide_eq_true hk
    refine ⟨l₁.reverse, l₂.reverse, ?_, fun e he => ?_⟩
    · rw [← List.reverse_inj, hl]
      simp
    · simpa using hbehind e (List.mem_reverse.1 he)
  · rintro ⟨l₁, l₂, rfl, hbehind⟩
    refine ⟨(k, v), List.find?_eq_some_iff_append.2
      ⟨decide_eq_true rfl, l₂.reverse, l₁.reverse, by simp, fun e he => ?_⟩, rfl⟩
    simpa using hbehind e (List.mem_reverse.1 he)

/-- Of entries whose keys differ none is replaced. -/
theorem mem_entries_ofList [DecidableEq κ] {l : List (κ × β)} (h : (l.map Prod.fst).Nodup) {k : κ}
    {v : β} : (k, v) ∈ (ofList l).entries ↔ (k, v) ∈ l := by
  rw [← get?_eq_some_iff, get?_ofList_eq_some_iff]
  constructor
  · rintro ⟨l₁, l₂, rfl, -⟩
    simp
  · intro hmem
    obtain ⟨l₁, l₂, rfl⟩ := List.append_of_mem hmem
    refine ⟨l₁, l₂, rfl, fun e he hk => ?_⟩
    rw [List.map_append, List.map_cons] at h
    have hbehind := (List.nodup_cons.1 (List.nodup_append.1 h).2.1).1
    exact hbehind (List.mem_map.2 ⟨e, he, hk⟩)

/-! ## One representation -/

theorem eq_of_mem_iff {l m : List (κ × β)} (hl : l.Pairwise fun e f => lt e.1 f.1)
    (hm : m.Pairwise fun e f => lt e.1 f.1) (h : ∀ x, x ∈ l ↔ x ∈ m) : l = m :=
  StrictTotal.eq_of_mem_iff Prod.fst hl hm h

theorem ext [DecidableEq κ] {m n : OrderedMap κ β} (h : ∀ k, m.get? k = n.get? k) : m = n :=
  eq_of_entries_eq <| eq_of_mem_iff m.ascending n.ascending fun x => by
    rw [← get?_eq_some_iff, ← get?_eq_some_iff, h]

end OrderedMap

end PatternAutomata
