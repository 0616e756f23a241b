import Mathlib.Computability.Language
import Mathlib.Order.CompletePartialOrder
import PatternAutomata.Pattern.Fragment
import PatternAutomata.Proofs.Path

/-!
# Parts of an automaton and their languages

A part is a closed set of states with an entry and an exit, from which no arrow leads (`Part`).  The
operators put empty moves between parts (`Adds`), and the paths through the result are read off from
where a path leaves a part for the first time (`Adds.leave`):

    concat       entry -> left -> right -> exit             (Part.concat)
    alternate    left or right between a new entry and exit  (Part.alternate)
    repeated     once or more, with skip also not at all     (Part.repeated)
    skippable    once or not at all                          (Part.skippable)
-/

namespace PatternAutomata.Automaton

open Computability

/-! ## More states and arrows -/

@[simp] theorem size_addState (a : Automaton) : a.addState.size = a.size + 1 :=
  size_addNode ..

@[simp] theorem arrows_addState (a : Automaton) (s : State) : a.addState.arrows s = a.arrows s := by
  unfold arrows addState addNode
  rw [Array.getElem?_push]
  by_cases h : s = a.nodes.size
  · rw [if_pos h, h, Array.getElem?_eq_none (Nat.le_refl _)]
    rfl
  · rw [if_neg h]

@[simp] theorem size_link (a : Automaton) (s t : State) : (a.link s t).size = a.size :=
  size_connect a s .epsilon t

theorem lt_size_addState {a : Automaton} {s : State} (h : s < a.size) : s < a.addState.size := by
  rw [size_addState]
  exact Nat.lt_succ_of_lt h

/-- Two new states are members. -/
theorem new_lt_size (a : Automaton) :
    a.size < a.addState.addState.size ∧ a.size + 1 < a.addState.addState.size := by
  rw [size_addState, size_addState]
  omega

theorem lt_size_link {a : Automaton} {s t u : State} (h : u < a.size) : u < (a.link s t).size := by
  rwa [size_link]

@[simp] theorem accepting_addState (a : Automaton) (s : State) :
    a.addState.accepting s = a.accepting s := by
  unfold accepting addState addNode
  rw [Array.getElem?_push]
  by_cases h : s = a.nodes.size
  · rw [if_pos h, h, Array.getElem?_eq_none (Nat.le_refl _)]
  · rw [if_neg h]

@[simp] theorem accepting_connect (a : Automaton) (s t : State) (l : Label) (u : State) :
    (a.connect s l t).accepting u = a.accepting u := by
  unfold accepting connect modifyNode
  rw [Array.getElem?_modify]
  by_cases h : s = u
  · subst h
    cases a.nodes[s]? <;> simp
  · rw [if_neg h]

/-- What `a'` has beyond `a` are states and empty moves between some pairs of states. -/
structure Adds (a a' : Automaton) (links : List (State × State)) : Prop where
  size : a.size ≤ a'.size
  initial : a'.initial = a.initial
  accepting : ∀ s, a'.accepting s = a.accepting s
  arrows : ∀ s r, r ∈ a'.arrows s ↔ (∃ t, (s, t) ∈ links ∧ r = ⟨.epsilon, t⟩) ∨ r ∈ a.arrows s

theorem adds_refl (a : Automaton) : Adds a a [] :=
  ⟨Nat.le_refl _, rfl, fun _ => rfl, by simp⟩

theorem Adds.addState {a a' : Automaton} {links : List (State × State)} (h : Adds a a' links) :
    Adds a a'.addState links := by
  refine ⟨?_, h.initial, fun s => ?_, fun s r => ?_⟩
  · rw [size_addState]
    exact Nat.le_succ_of_le h.size
  · rw [accepting_addState, h.accepting]
  · rw [arrows_addState]
    exact h.arrows s r

theorem Adds.link {a a' : Automaton} {links : List (State × State)} (h : Adds a a' links)
    {s : State} (hs : s < a'.size) (t : State) : Adds a (a'.link s t) ((s, t) :: links) := by
  refine ⟨?_, h.initial, fun u => ?_, fun u r => ?_⟩
  · rw [size_link]
    exact h.size
  · rw [Automaton.link, accepting_connect, h.accepting]
  · rw [Automaton.link, mem_arrows_connect hs, h.arrows u r]
    constructor
    · rintro (⟨rfl, rfl⟩ | ⟨v, hv, rfl⟩ | hr)
      · exact .inl ⟨t, List.mem_cons_self, rfl⟩
      · exact .inl ⟨v, List.mem_cons_of_mem _ hv, rfl⟩
      · exact .inr hr
    · rintro (⟨v, hv, rfl⟩ | hr)
      · rcases List.mem_cons.1 hv with e | hv
        · cases e
          exact .inl ⟨rfl, rfl⟩
        · exact .inr (.inl ⟨v, hv, rfl⟩)
      · exact .inr (.inr hr)

/-! ## Paths in a closed set -/

theorem Path.of_agree {a a' : Automaton} {R : Set State}
    (hR : ∀ s ∈ R, ∀ r ∈ a.arrows s, r.dest ∈ R)
    (h : ∀ s ∈ R, ∀ r ∈ a.arrows s, r ∈ a'.arrows s) {s t : State} {w : List Char}
    (hp : a.Path s w t) (hs : s ∈ R) : a'.Path s w t := by
  induction hp with
  | nil s => exact .nil s
  | empty hm _ ih => exact .empty (h _ hs _ hm) (ih (hR _ hs _ hm))
  | read hr hc _ ih => exact .read (h _ hs _ hr) hc (ih (hR _ hs _ hr))

/-! ## Paths with more empty moves -/

namespace Adds

variable {a a' : Automaton} {links : List (State × State)} {s t : State} {w : List Char}

theorem path (h : Adds a a' links) (hp : a.Path s w t) : a'.Path s w t := by
  induction hp with
  | nil s => exact .nil s
  | empty hm _ ih => exact .empty ((h.arrows _ _).2 (.inr hm)) ih
  | read hr hc _ ih => exact .read ((h.arrows _ _).2 (.inr hr)) hc ih

theorem path_link (h : Adds a a' links) (hl : (s, t) ∈ links) {u : State} (hp : a'.Path t w u) :
    a'.Path s w u := .empty ((h.arrows _ _).2 (.inl ⟨t, hl, rfl⟩)) hp

/-- A state without arrows of its own is left by an added move only. -/
theorem path_cases (h : Adds a a' links) (hs : ∀ r, r ∉ a.arrows s) (hp : a'.Path s w t) :
    (w = [] ∧ t = s) ∨ ∃ u, (s, u) ∈ links ∧ a'.Path u w t := by
  cases hp with
  | nil => exact .inl ⟨rfl, rfl⟩
  | empty hm hp =>
    rcases (h.arrows _ _).1 hm with ⟨u, hu, e⟩ | hm
    · cases e
      exact .inr ⟨_, hu, hp⟩
    · exact absurd hm (hs _)
  | read hr hc _ =>
    rcases (h.arrows _ _).1 hr with ⟨u, -, e⟩ | hr
    · cases e
      cases hc
    · exact absurd hr (hs _)

/-- A path out of a closed set leaves it from the one state where moves are added.  What is read
after that may depend on coming back. -/
theorem leave {R : Set State} {o : State} {K : List Char → Prop} (h : Adds a a' links)
    (hR : ∀ s ∈ R, ∀ r ∈ a.arrows s, r.dest ∈ R) (hl : ∀ s t, (s, t) ∈ links → s ∈ R → s = o)
    (ht : t ∉ R)
    (hK : ∀ x, (o, x) ∈ links → ∀ w, a'.Path x w t →
      (x ∈ R → ∃ u v, w = u ++ v ∧ a.Path x u o ∧ K v) → K w)
    (hp : a'.Path s w t) (hs : s ∈ R) : ∃ u v, w = u ++ v ∧ a.Path s u o ∧ K v := by
  induction hp with
  | nil s => exact absurd hs ht
  | @empty s x t w hm hp ih =>
    rcases (h.arrows _ _).1 hm with ⟨y, hy, e⟩ | hm
    · cases e
      cases hl _ _ hy hs
      exact ⟨[], w, rfl, .nil _, hK x hy w hp (ih ht hK)⟩
    · obtain ⟨u, v, rfl, hu, hv⟩ := ih ht hK (hR _ hs _ hm)
      exact ⟨u, v, rfl, .empty hm hu, hv⟩
  | read hr hc _ ih =>
    rcases (h.arrows _ _).1 hr with ⟨y, -, e⟩ | hr
    · cases e
      cases hc
    · obtain ⟨u, v, rfl, hu, hv⟩ := ih ht hK (hR _ hs _ hr)
      exact ⟨_ :: u, v, rfl, .read hr hc hu, hv⟩

/-- A path that ends at the one place behind a closed set has gone through its exit. -/
theorem leave_exit {R : Set State} {o y : State} (h : Adds a a' links)
    (hR : ∀ s ∈ R, ∀ r ∈ a.arrows s, r.dest ∈ R) (ho : o ∈ R) (hy : y ∉ R)
    (hl : ∀ s t, (s, t) ∈ links → s ∈ R → s = o ∧ t = y) (hsink : ∀ w, a'.Path y w y → w = [])
    (hp : a'.Path s w y) (hs : s ∈ R) : a.Path s w o := by
  have hK : ∀ x, (o, x) ∈ links → ∀ w, a'.Path x w y →
      (x ∈ R → ∃ u v, w = u ++ v ∧ a.Path x u o ∧ v = []) → w = [] := by
    intro x hx w hw _
    rw [(hl o x hx ho).2] at hw
    exact hsink w hw
  obtain ⟨u, v, rfl, hu, rfl⟩ := h.leave hR (fun s t hst hs => (hl s t hst hs).1) hy hK hp hs
  rwa [List.append_nil]

end Adds

/-! ## Parts -/

/-- A closed set of states with an entry and an exit, and the texts that lead from one to the
other. -/
structure Part (a : Automaton) (R : Set State) (entry exit : State) (L : Language Char) : Prop where
  entry_mem : entry ∈ R
  exit_mem : exit ∈ R
  lt_size : ∀ s ∈ R, s < a.size
  closed : ∀ s ∈ R, ∀ r ∈ a.arrows s, r.dest ∈ R
  sink : ∀ r, r ∉ a.arrows exit
  reads : ∀ w, a.Path entry w exit ↔ w ∈ L

variable {a a' : Automaton} {R S : Set State} {i o i' o' : State} {L M : Language Char}

/-- States of a part are not new ones. -/
theorem Part.ne_new (h : Part a R i o L) {z x y : State} (hz : z ∈ R) (hx : a.size ≤ x)
    (hy : a.size ≤ y) : z ≠ x ∧ z ≠ y :=
  ⟨Nat.ne_of_lt (Nat.lt_of_lt_of_le (h.lt_size z hz) hx),
    Nat.ne_of_lt (Nat.lt_of_lt_of_le (h.lt_size z hz) hy)⟩

theorem not_mem_arrows_of_le {z : State} (hz : a.size ≤ z) (r : Arrow) : r ∉ a.arrows z := by
  rw [arrows_of_le hz]
  exact List.not_mem_nil

/-- A part depends on the arrows inside of it only. -/
theorem Part.congr (h : Part a R i o L)
    (ha : ∀ s ∈ R, ∀ r, r ∈ a'.arrows s ↔ r ∈ a.arrows s) (hsize : a.size ≤ a'.size) :
    Part a' R i o L := by
  have hclosed : ∀ s ∈ R, ∀ r ∈ a'.arrows s, r.dest ∈ R := fun s hs r hr =>
    h.closed s hs r ((ha s hs r).1 hr)
  refine ⟨h.entry_mem, h.exit_mem, fun s hs => Nat.lt_of_lt_of_le (h.lt_size s hs) hsize,
    hclosed, fun r hr => h.sink r ((ha o h.exit_mem r).1 hr), fun w => ?_⟩
  rw [← h.reads w]
  constructor
  · intro hp
    exact hp.of_agree hclosed (fun s hs r hr => (ha s hs r).1 hr) h.entry_mem
  · intro hp
    exact hp.of_agree h.closed (fun s hs r hr => (ha s hs r).2 hr) h.entry_mem

/-- Moves added elsewhere do not change a part. -/
theorem Part.extend {links : List (State × State)} (h : Part a R i o L) (ha : Adds a a' links)
    (hl : ∀ s t, (s, t) ∈ links → s ∉ R) : Part a' R i o L := by
  refine h.congr (fun s hs r => ?_) ha.size
  rw [ha.arrows s r]
  refine or_iff_right ?_
  rintro ⟨t, ht, -⟩
  exact hl s t ht hs

theorem Part.concat (h : Part a R i o L) (h' : Part a S i' o' M) (hd : Disjoint R S)
    (ha : Adds a a' [(o, i')]) : Part a' (R ∪ S) i o' (L * M) := by
  have ho : o ∉ S := Set.disjoint_left.1 hd h.exit_mem
  have ho' : o' ∉ R := Set.disjoint_right.1 hd h'.exit_mem
  have hS : ∀ s t, (s, t) ∈ [(o, i')] → s ∉ S := by
    intro s t hst
    cases List.mem_singleton.1 hst
    exact ho
  have h'' := h'.extend ha hS
  refine ⟨.inl h.entry_mem, .inr h'.exit_mem, fun s hs => ?_, fun s hs r hr => ?_, h''.sink,
    fun w => ?_⟩
  · rcases hs with hs | hs
    · exact Nat.lt_of_lt_of_le (h.lt_size s hs) ha.size
    · exact h''.lt_size s hs
  · rcases (ha.arrows s r).1 hr with ⟨t, ht, rfl⟩ | hr
    · cases List.mem_singleton.1 ht
      exact .inr h'.entry_mem
    · rcases hs with hs | hs
      · exact .inl (h.closed s hs r hr)
      · exact .inr (h'.closed s hs r hr)
  · rw [Language.mem_mul]
    constructor
    · intro hp
      obtain ⟨u, v, rfl, hu, hv⟩ := ha.leave (K := fun v => a'.Path i' v o') h.closed
        (fun s t hst _ => by cases List.mem_singleton.1 hst; rfl) ho'
        (fun x hx v hv _ => by cases List.mem_singleton.1 hx; exact hv) hp h.entry_mem
      exact ⟨u, (h.reads u).1 hu, v, (h''.reads v).1 hv, rfl⟩
    · rintro ⟨u, hu, v, hv, rfl⟩
      refine (ha.path ((h.reads u).2 hu)).append ?_
      exact ha.path_link List.mem_cons_self ((h''.reads v).2 hv)

/-- A closed set between a new entry and a new exit is a part, when the added moves lead into the set
or to the exit. -/
theorem part_between {links : List (State × State)} {x y : State} (hR : ∀ s ∈ R, s < a.size)
    (hclosed : ∀ s ∈ R, ∀ r ∈ a.arrows s, r.dest ∈ R) (hx : a.size ≤ x) (hy : a.size ≤ y)
    (ha : Adds a a' links) (hxs : x < a'.size) (hys : y < a'.size)
    (hl : ∀ s t, (s, t) ∈ links → s ≠ y ∧ (t ∈ R ∨ t = y))
    (hreads : ∀ w, a'.Path x w y ↔ w ∈ L) : Part a' (R ∪ {x, y}) x y L := by
  refine ⟨by simp, by simp, fun s hs => ?_, fun s hs r hr => ?_, fun r hr => ?_, hreads⟩
  · rcases hs with hs | rfl | rfl
    · exact Nat.lt_of_lt_of_le (hR s hs) ha.size
    · exact hxs
    · exact hys
  · rcases (ha.arrows s r).1 hr with ⟨t, ht, rfl⟩ | hr
    · rcases (hl s t ht).2 with ht | rfl
      · exact .inl ht
      · exact .inr (.inr rfl)
    · rcases hs with hs | rfl | rfl
      · exact .inl (hclosed s hs r hr)
      · exact absurd hr (not_mem_arrows_of_le hx r)
      · exact absurd hr (not_mem_arrows_of_le hy r)
  · rcases (ha.arrows y r).1 hr with ⟨t, ht, -⟩ | hr
    · exact (hl y t ht).1 rfl
    · exact not_mem_arrows_of_le hy r hr

/-- Nothing is read at a new state that no added move leaves. -/
theorem Adds.eq_nil_of_path {links : List (State × State)} {y : State} {w : List Char}
    (ha : Adds a a' links) (hy : a.size ≤ y) (hl : ∀ s t, (s, t) ∈ links → s ≠ y)
    (hp : a'.Path y w y) : w = [] := by
  rcases ha.path_cases (not_mem_arrows_of_le hy) hp with ⟨hw, -⟩ | ⟨u, hu, -⟩
  · exact hw
  · exact absurd rfl (hl y u hu)

theorem mem_alternate_links {x y s t : State} : (s, t) ∈ [(o', y), (o, y), (x, i'), (x, i)] ↔
    (s = o' ∧ t = y) ∨ (s = o ∧ t = y) ∨ (s = x ∧ t = i') ∨ (s = x ∧ t = i) := by
  simp

/-- The empty moves of an alternation leave the one part and the other at the exit. -/
theorem Part.eq_of_alternate_link (h : Part a R i o L) (h' : Part a S i' o' M) (hd : Disjoint R S)
    {x y s t : State} (hx : a.size ≤ x) (hst : (s, t) ∈ [(o', y), (o, y), (x, i'), (x, i)]) :
    (s ∈ R → s = o ∧ t = y) ∧ (s ∈ S → s = o' ∧ t = y) := by
  have hnew : x ∉ R ∧ x ∉ S :=
    ⟨fun hs => (h.ne_new hs hx hx).1 rfl, fun hs => (h'.ne_new hs hx hx).1 rfl⟩
  rcases mem_alternate_links.1 hst with ⟨rfl, rfl⟩ | ⟨rfl, rfl⟩ | ⟨rfl, -⟩ | ⟨rfl, -⟩
  · exact ⟨fun hs => absurd hs (Set.disjoint_right.1 hd h'.exit_mem), fun _ => ⟨rfl, rfl⟩⟩
  · exact ⟨fun _ => ⟨rfl, rfl⟩, fun hs => absurd hs (Set.disjoint_left.1 hd h.exit_mem)⟩
  · exact ⟨fun hs => absurd hs hnew.1, fun hs => absurd hs hnew.2⟩
  · exact ⟨fun hs => absurd hs hnew.1, fun hs => absurd hs hnew.2⟩

theorem Part.alternate (h : Part a R i o L) (h' : Part a S i' o' M) (hd : Disjoint R S)
    {x y : State} (hx : a.size ≤ x) (hy : a.size ≤ y) (hxy : x ≠ y)
    (ha : Adds a a' [(o', y), (o, y), (x, i'), (x, i)]) (hxs : x < a'.size) (hys : y < a'.size) :
    Part a' (R ∪ S ∪ {x, y}) x y (L + M) := by
  have hR : ∀ z ∈ R, z ≠ x ∧ z ≠ y := fun z hz => h.ne_new hz hx hy
  have hS : ∀ z ∈ S, z ≠ x ∧ z ≠ y := fun z hz => h'.ne_new hz hx hy
  have hlR : ∀ s t, (s, t) ∈ [(o', y), (o, y), (x, i'), (x, i)] → s ∈ R → s = o ∧ t = y :=
    fun s t hst => (h.eq_of_alternate_link h' hd hx hst).1
  have hlS : ∀ s t, (s, t) ∈ [(o', y), (o, y), (x, i'), (x, i)] → s ∈ S → s = o' ∧ t = y :=
    fun s t hst => (h.eq_of_alternate_link h' hd hx hst).2
  have hl : ∀ s t, (s, t) ∈ [(o', y), (o, y), (x, i'), (x, i)] → s ≠ y ∧ (t ∈ R ∪ S ∨ t = y) := by
    intro s t hst
    rcases mem_alternate_links.1 hst with ⟨rfl, rfl⟩ | ⟨rfl, rfl⟩ | ⟨rfl, rfl⟩ | ⟨rfl, rfl⟩
    · exact ⟨(hS _ h'.exit_mem).2, .inr rfl⟩
    · exact ⟨(hR _ h.exit_mem).2, .inr rfl⟩
    · exact ⟨hxy, .inl (.inr h'.entry_mem)⟩
    · exact ⟨hxy, .inl (.inl h.entry_mem)⟩
  have hnil : ∀ w, a'.Path y w y → w = [] := fun w hp =>
    ha.eq_nil_of_path hy (fun s t hst => (hl s t hst).1) hp
  refine part_between (fun s hs => ?_) (fun s hs r hr => ?_) hx hy ha hxs hys hl fun w => ?_
  · rcases hs with hs | hs
    · exact h.lt_size s hs
    · exact h'.lt_size s hs
  · rcases hs with hs | hs
    · exact .inl (h.closed s hs r hr)
    · exact .inr (h'.closed s hs r hr)
  · rw [Language.mem_add]
    constructor
    · intro hp
      rcases ha.path_cases (not_mem_arrows_of_le hx) hp with ⟨-, e⟩ | ⟨u, hu, hp⟩
      · exact absurd e.symm hxy
      · rcases mem_alternate_links.1 hu with ⟨e, -⟩ | ⟨e, -⟩ | ⟨-, rfl⟩ | ⟨-, rfl⟩
        · exact absurd e.symm (hS _ h'.exit_mem).1
        · exact absurd e.symm (hR _ h.exit_mem).1
        · exact .inr ((h'.reads w).1 (ha.leave_exit h'.closed h'.exit_mem (fun hm => (hS y hm).2 rfl)
            hlS hnil hp h'.entry_mem))
        · exact .inl ((h.reads w).1 (ha.leave_exit h.closed h.exit_mem (fun hm => (hR y hm).2 rfl)
            hlR hnil hp h.entry_mem))
    · have hjoin : ∀ {j p : State}, (x, j) ∈ [(o', y), (o, y), (x, i'), (x, i)] →
          (p, y) ∈ [(o', y), (o, y), (x, i'), (x, i)] → a.Path j w p → a'.Path x w y := by
        intro j p hj hp hpath
        have := (ha.path hpath).append (ha.path_link hp (.nil y))
        rw [List.append_nil] at this
        exact ha.path_link hj this
      rintro (hw | hw)
      · exact hjoin (by simp) (by simp) ((h.reads w).2 hw)
      · exact hjoin (by simp) (by simp) ((h'.reads w).2 hw)

theorem append_mem_kstar {u v : List Char} (hu : u ∈ L) (hv : v ∈ L∗) : u ++ v ∈ L∗ := by
  rw [← Language.one_add_self_mul_kstar_eq_kstar, Language.mem_add]
  exact .inr (Language.append_mem_mul hu hv)

section Repeated

variable {links : List (State × State)} {y : State}

/-- A path from the entry to the new exit goes round one or more times: behind the exit of the part, its
entry and the new exit can follow. -/
theorem Part.mem_of_round (h : Part a R i o L) (ha : Adds a a' links) (hy : a.size ≤ y)
    (hlR : ∀ s t, (s, t) ∈ links → s ∈ R → s = o ∧ (t = i ∨ t = y))
    (hly : ∀ s t, (s, t) ∈ links → s ≠ y) {w : List Char} (hp : a'.Path i w y) : w ∈ L * L∗ := by
  have hyR : y ∉ R := fun hm => (h.ne_new hm hy hy).1 rfl
  have hK : ∀ q, (o, q) ∈ links → ∀ w, a'.Path q w y →
      (q ∈ R → ∃ u v, w = u ++ v ∧ a.Path q u o ∧ v ∈ L∗) → w ∈ L∗ := by
    intro q hq w hp hin
    rcases (hlR o q hq h.exit_mem).2 with rfl | rfl
    · obtain ⟨u, v, rfl, hu, hv⟩ := hin h.entry_mem
      exact append_mem_kstar ((h.reads u).1 hu) hv
    · rw [ha.eq_nil_of_path hy hly hp]
      exact Language.nil_mem_kstar L
  obtain ⟨u, v, rfl, hu, hv⟩ :=
    ha.leave h.closed (fun s t hst hs => (hlR s t hst hs).1) hyR hK hp h.entry_mem
  exact Language.append_mem_mul ((h.reads u).1 hu) hv

theorem Part.round_of_mem (h : Part a R i o L) (ha : Adds a a' links) (hback : (o, i) ∈ links)
    (hout : (o, y) ∈ links) {w : List Char} (hw : w ∈ L * L∗) : a'.Path i w y := by
  obtain ⟨u, hu, v, hv, rfl⟩ := Language.mem_mul.1 hw
  refine (ha.path ((h.reads u).2 hu)).append ?_
  obtain ⟨vs, rfl, hvs⟩ := Language.mem_kstar.1 hv
  clear hw hv
  induction vs with
  | nil => exact ha.path_link hout (.nil y)
  | cons v vs ih =>
    have hv := (h.reads v).2 (hvs v List.mem_cons_self)
    have hrest := ih fun v' hv' => hvs v' (List.mem_cons_of_mem v hv')
    rw [List.flatten_cons]
    exact ha.path_link hback ((ha.path hv).append hrest)

/-- The empty moves of a repetition leave the part at its exit. -/
theorem Part.eq_of_repeated_link (h : Part a R i o L) {x s t : State} {skip : Bool} (hx : a.size ≤ x)
    (hst : (s = o ∧ t = i) ∨ (s = o ∧ t = y) ∨ (s = x ∧ t = i) ∨ (skip = true ∧ s = x ∧ t = y))
    (hs : s ∈ R) : s = o ∧ (t = i ∨ t = y) := by
  have hnew : s ≠ x := (h.ne_new hs hx hx).1
  rcases hst with ⟨e, ht⟩ | ⟨e, ht⟩ | ⟨e, -⟩ | ⟨-, e, -⟩
  · exact ⟨e, .inl ht⟩
  · exact ⟨e, .inr ht⟩
  · exact absurd e hnew
  · exact absurd e hnew

end Repeated

theorem Part.repeated (h : Part a R i o L) {x y : State} (hx : a.size ≤ x) (hy : a.size ≤ y)
    (hxy : x ≠ y) {links : List (State × State)} {skip : Bool}
    (hlinks : ∀ s t, (s, t) ∈ links ↔
      (s = o ∧ t = i) ∨ (s = o ∧ t = y) ∨ (s = x ∧ t = i) ∨ (skip = true ∧ s = x ∧ t = y))
    (ha : Adds a a' links) (hxs : x < a'.size) (hys : y < a'.size) :
    Part a' (R ∪ {x, y}) x y (if skip then L∗ else L * L∗) := by
  have hR : ∀ z ∈ R, z ≠ x ∧ z ≠ y := fun z hz => h.ne_new hz hx hy
  have hlR : ∀ s t, (s, t) ∈ links → s ∈ R → s = o ∧ (t = i ∨ t = y) := fun s t hst hs =>
    h.eq_of_repeated_link hx ((hlinks s t).1 hst) hs
  have hl : ∀ s t, (s, t) ∈ links → s ≠ y ∧ (t ∈ R ∨ t = y) := by
    intro s t hst
    rcases (hlinks s t).1 hst with ⟨rfl, rfl⟩ | ⟨rfl, rfl⟩ | ⟨rfl, rfl⟩ | ⟨-, rfl, rfl⟩
    · exact ⟨(hR _ h.exit_mem).2, .inl h.entry_mem⟩
    · exact ⟨(hR _ h.exit_mem).2, .inr rfl⟩
    · exact ⟨hxy, .inl h.entry_mem⟩
    · exact ⟨hxy, .inr rfl⟩
  have hly : ∀ s t, (s, t) ∈ links → s ≠ y := fun s t hst => (hl s t hst).1
  have hround : ∀ w, a'.Path i w y ↔ w ∈ L * L∗ := by
    intro w
    constructor
    · exact fun hp => h.mem_of_round ha hy hlR hly hp
    · exact fun hw => h.round_of_mem ha ((hlinks o i).2 (.inl ⟨rfl, rfl⟩))
        ((hlinks o y).2 (.inr (.inl ⟨rfl, rfl⟩))) hw
  have hentry : ∀ w, a'.Path x w y ↔ w ∈ L * L∗ ∨ skip = true ∧ w = [] := by
    intro w
    rw [← hround]
    constructor
    · intro hp
      rcases ha.path_cases (not_mem_arrows_of_le hx) hp with ⟨-, e⟩ | ⟨q, hq, hp⟩
      · exact absurd e.symm hxy
      · rcases (hlinks x q).1 hq with ⟨e, -⟩ | ⟨e, -⟩ | ⟨-, rfl⟩ | ⟨hskip, -, rfl⟩
        · exact absurd e.symm (hR o h.exit_mem).1
        · exact absurd e.symm (hR o h.exit_mem).1
        · exact .inl hp
        · exact .inr ⟨hskip, ha.eq_nil_of_path hy hly hp⟩
    · rintro (hp | ⟨hskip, rfl⟩)
      · exact ha.path_link ((hlinks x i).2 (.inr (.inr (.inl ⟨rfl, rfl⟩)))) hp
      · exact ha.path_link ((hlinks x y).2 (.inr (.inr (.inr ⟨hskip, rfl, rfl⟩)))) (.nil y)
  refine part_between h.lt_size h.closed hx hy ha hxs hys hl fun w => ?_
  rw [hentry w]
  cases skip with
  | false => simp
  | true =>
    have hstar : w ∈ L∗ ↔ w ∈ 1 + L * L∗ := by rw [Language.one_add_self_mul_kstar_eq_kstar]
    show _ ↔ w ∈ L∗
    rw [hstar, Language.mem_add, Language.mem_one]
    simp [or_comm]

theorem eq_of_skippable_link {x s t : State} (hst : (s, t) ∈ [(x, o), (x, i)]) :
    s = x ∧ (t = o ∨ t = i) := by
  simp only [List.mem_cons, Prod.mk.injEq, List.not_mem_nil, or_false] at hst
  rcases hst with ⟨rfl, rfl⟩ | ⟨rfl, rfl⟩
  · exact ⟨rfl, .inl rfl⟩
  · exact ⟨rfl, .inr rfl⟩

theorem Part.skippable (h : Part a R i o L) {x : State} (hx : a.size ≤ x)
    (ha : Adds a a' [(x, o), (x, i)]) (hxs : x < a'.size) : Part a' (R ∪ {x}) x o (1 + L) := by
  have hR : ∀ z ∈ R, z ≠ x := fun z hz => (h.ne_new hz hx hx).1
  have h' := h.extend ha (fun s t hst hs => hR s hs (eq_of_skippable_link hst).1)
  refine ⟨by simp, .inl h.exit_mem, fun s hs => ?_, fun s hs r hr => ?_, h'.sink, fun w => ?_⟩
  · rcases hs with hs | rfl
    · exact h'.lt_size s hs
    · exact hxs
  · rcases (ha.arrows s r).1 hr with ⟨t, ht, rfl⟩ | hr
    · rcases (eq_of_skippable_link ht).2 with rfl | rfl
      · exact .inl h.exit_mem
      · exact .inl h.entry_mem
    · rcases hs with hs | rfl
      · exact .inl (h.closed s hs r hr)
      · exact absurd hr (not_mem_arrows_of_le hx r)
  · rw [Language.mem_add, Language.mem_one]
    constructor
    · intro hp
      rcases ha.path_cases (not_mem_arrows_of_le hx) hp with ⟨-, e⟩ | ⟨q, hq, hp⟩
      · exact absurd e (hR o h.exit_mem)
      · rcases (eq_of_skippable_link hq).2 with rfl | rfl
        · rcases ha.path_cases h.sink hp with ⟨hw, -⟩ | ⟨u, hu, -⟩
          · exact .inl hw
          · exact absurd (eq_of_skippable_link hu).1 (hR _ h.exit_mem)
        · exact .inr ((h'.reads w).1 hp)
    · rintro (rfl | hw)
      · exact ha.path_link List.mem_cons_self (.nil o)
      · exact ha.path_link (List.mem_cons_of_mem _ List.mem_cons_self) ((h'.reads w).2 hw)

end PatternAutomata.Automaton
