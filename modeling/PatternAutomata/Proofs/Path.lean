import PatternAutomata.Automaton.Run
import PatternAutomata.Proofs.Reach

/-!
# Paths, and what a simulation computes

A path takes empty moves without reading and other arrows for the characters that they admit.  A
simulation keeps the ends of all paths over the text read so far:

    t ∈ a.runSet (a.closure seeds) w ↔ a path over w leads from a seed to t      (mem_runSet_closure)
    a.acceptsByAnyPath w ↔ a path over w leads from the initial state to an accepting one
                                                                        (acceptsByAnyPath_iff)
-/

namespace PatternAutomata.Automaton

open Relation

/-- Whether a text leads along arrows from one state to another. -/
inductive Path (a : Automaton) : State → List Char → State → Prop where
  | nil (s : State) : Path a s [] s
  | empty {s t u : State} {w : List Char} : a.EmptyMove s t → Path a t w u → Path a s w u
  | read {s t u : State} {l : Label} {c : Char} {w : List Char} :
    (⟨l, t⟩ : Arrow) ∈ a.arrows s → l.admits c = true → Path a t w u → Path a s (c :: w) u

variable {a : Automaton}

/-! ## Joining and splitting paths -/

theorem Path.append {s t u : State} {v w : List Char} (h : a.Path s v t) (h' : a.Path t w u) :
    a.Path s (v ++ w) u := by
  induction h with
  | nil s => exact h'
  | empty hm _ ih => exact .empty hm (ih h')
  | read hr hc _ ih => exact .read hr hc (ih h')

theorem Path.of_emptyMoves {s t u : State} {w : List Char} (h : ReflTransGen a.EmptyMove s t)
    (h' : a.Path t w u) : a.Path s w u := by
  induction h using ReflTransGen.head_induction_on with
  | refl => exact h'
  | head hm _ ih => exact .empty hm ih

theorem path_nil_iff {s t : State} : a.Path s [] t ↔ ReflTransGen a.EmptyMove s t := by
  constructor
  · intro h
    generalize hw : ([] : List Char) = w at h
    induction h with
    | nil s => exact .refl
    | empty hm _ ih => exact .head hm (ih hw)
    | read => cases hw
  · exact fun h => .of_emptyMoves h (.nil t)

/-- A path over a text takes empty moves up to the arrow that reads the first character. -/
theorem path_cons_iff {s u : State} {c : Char} {w : List Char} :
    a.Path s (c :: w) u ↔ ∃ r l t, ReflTransGen a.EmptyMove s r ∧ (⟨l, t⟩ : Arrow) ∈ a.arrows r ∧
      l.admits c = true ∧ a.Path t w u := by
  constructor
  · intro h
    generalize hv : c :: w = v at h
    induction h with
    | nil s => cases hv
    | empty hm _ ih =>
      obtain ⟨r, l, t, hr, hl, hc, hp⟩ := ih hv
      exact ⟨r, l, t, .head hm hr, hl, hc, hp⟩
    | read hr hc hp =>
      cases hv
      exact ⟨_, _, _, .refl, hr, hc, hp⟩
  · rintro ⟨r, l, t, hr, hl, hc, hp⟩
    exact .of_emptyMoves hr (.read hl hc hp)

theorem Path.moves {s t : State} {w : List Char} (h : a.Path s w t) : ReflTransGen a.Moves s t := by
  induction h with
  | nil s => exact .refl
  | empty hm _ ih => exact .head hm.moves ih
  | read hr _ _ ih => exact .head ⟨_, hr⟩ ih

theorem Path.lt_size (hw : a.WellFormed) {s t : State} {w : List Char} (h : a.Path s w t)
    (hs : s < a.size) : t < a.size := by
  cases h.moves with
  | refl => exact hs
  | tail _ h => exact hw.lt_of_moves h

/-! ## Simulation -/

theorem mem_move {set : StateSet} {c : Char} {t : State} :
    t ∈ a.move set c ↔ ∃ s ∈ set, ∃ l, (⟨l, t⟩ : Arrow) ∈ a.arrows s ∧ l.admits c = true := by
  unfold move
  rw [List.mem_flatMap]
  refine exists_congr fun s => and_congr_right fun _ => ?_
  rw [List.mem_map]
  constructor
  · rintro ⟨⟨l, _⟩, h, rfl⟩
    obtain ⟨h, hc⟩ := List.mem_filter.1 h
    exact ⟨l, h, hc⟩
  · rintro ⟨l, h, hc⟩
    exact ⟨_, List.mem_filter.2 ⟨h, hc⟩, rfl⟩

theorem mem_runSet_closure (hw : a.WellFormed) {seeds : List State} {w : List Char} {t : State} :
    t ∈ a.runSet (a.closure seeds) w ↔ ∃ s ∈ seeds, s < a.size ∧ a.Path s w t := by
  induction w generalizing seeds with
  | nil =>
    simp only [path_nil_iff]
    exact mem_closure hw
  | cons c w ih =>
    rw [runSet, List.foldl_cons, ← runSet, stepSet, ih]
    constructor
    · rintro ⟨u, hu, -, hp⟩
      obtain ⟨r, hr, l, hl, hc⟩ := mem_move.1 hu
      obtain ⟨s, hs, hlt, hsr⟩ := (mem_closure hw).1 hr
      exact ⟨s, hs, hlt, path_cons_iff.2 ⟨r, l, u, hsr, hl, hc, hp⟩⟩
    · rintro ⟨s, hs, hlt, hp⟩
      obtain ⟨r, l, u, hsr, hl, hc, hp⟩ := path_cons_iff.1 hp
      have hr : r ∈ a.closure seeds := (mem_closure hw).2 ⟨s, hs, hlt, hsr⟩
      exact ⟨u, mem_move.2 ⟨r, hr, l, hl, hc⟩, hw.dest_lt r _ hl, hp⟩

theorem mem_acceptsSet {set : StateSet} :
    a.acceptsSet set = true ↔ ∃ s ∈ set, a.accepting s = true := List.any_eq_true

theorem acceptsByAnyPath_iff (hw : a.WellFormed) {s : State} (hs : a.initial = some s)
    {w : List Char} :
    a.acceptsByAnyPath w = true ↔ ∃ t, a.Path s w t ∧ a.accepting t = true := by
  have key : ∀ t, t ∈ a.runSet (a.closure [s]) w ↔ a.Path s w t := fun t => by
    rw [mem_runSet_closure hw]
    simp [hw.initial_lt s hs]
  unfold acceptsByAnyPath simulate
  rw [hs, Option.map_some]
  simp only [mem_acceptsSet, key]

end PatternAutomata.Automaton
