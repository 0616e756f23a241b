import PatternAutomata.Proofs.Assembly
import PatternAutomata.Proofs.PostorderText
import PatternAutomata.Proofs.Woven

/-!
# The language of the automaton of a postorder text

A fragment stands for a language: it is a woven part, or a label that has no states yet (`Fills`).  It has
all states that were added for it, and states from before keep their arrows, so a fragment that waits is
not disturbed by what comes after it, and nothing is left over when the last one is built:

    taking the postorder of e pushes its fragment                      (foldlM_take_postorder)
    this stands for e.language and fills e.states states                      (weaves_fragment)
    finished, it is one woven part from the initial to the accepting state
                                                              (exists_woven_of_postorder)
-/

namespace PatternAutomata

open Computability

/-! ## The number of states -/

namespace Expr

/-- Number of states that are built for an expression. -/
def states : Expr → Nat
  | symbol _ | range _ _ => 2
  | concat e f => e.states + f.states
  | alternation e f => e.states + f.states + 2
  | star e | plus e => e.states + 2
  | optional e => e.states + 1

end Expr

/-- Number of states that a fragment still needs. -/
def Fragment.width : Fragment → Nat
  | .pending _ => 2
  | .built _ _ => 0

namespace Automaton

variable {a a' : Automaton} {n m j k : Nat} {f : Fragment} {L M : Language Char}

/-! ## Fragments and their states -/

/-- Whether a fragment stands for a language, with the states from one bound to another and these only.
A label has none. -/
inductive Fills (a : Automaton) (n m : Nat) : Fragment → Language Char → Prop where
  | pending {l : Label} (hl : l.Proper) (hnm : n = m) :
    Fills a n m (.pending l) {w | ∃ c, w = [c] ∧ l.admits c = true}
  | built {i o : State} {R : Set State} {L : Language Char} (h : Woven a R i o L)
    (hR : ∀ s : Nat, s ∈ R ↔ n ≤ s ∧ s < m) : Fills a n m (.built i o) L

theorem Fills.agrees (h : Fills a n m f L) (ha : Agrees m a a') : Fills a' n m f L := by
  cases h with
  | pending hl hnm => exact .pending hl hnm
  | built h hR => exact .built (h.agrees ha fun s hs => ((hR s).1 hs).2) hR

/-- A fragment is built in its own states, or in new ones. -/
theorem Fills.build (h : Fills a n m f L) :
    ∃ a₁ i o R, a.build f = (a₁, i, o) ∧ Agrees a.size a a₁ ∧ a₁.size = a.size + f.width ∧
      Woven a₁ R i o L ∧ ∀ s : Nat, s ∈ R ↔ (n ≤ s ∧ s < m) ∨ (a.size ≤ s ∧ s < a₁.size) := by
  cases h with
  | @pending l hl hnm =>
    have hsize : (a.addState.addState.connect a.size l (a.size + 1)).size = a.size + 2 := by
      rw [size_connect, size_addState, size_addState]
    refine ⟨_, _, _, _, rfl, agrees_pair a l, hsize, woven_pair a hl, fun s => ?_⟩
    rw [hsize]
    constructor
    · rintro (rfl | rfl) <;> omega
    · intro hs
      show s = a.size ∨ s = a.size + 1
      omega
  | built h hR =>
    refine ⟨a, _, _, _, rfl, agrees_refl _ a, rfl, h, fun s => ?_⟩
    rw [hR s]
    omega

/-- Whether an operation leaves the states that there were alone, and gives a fragment of all new ones
that stands for a language; with those that it still needs there are `k` of them. -/
structure Weaves (a : Automaton) (r : Automaton × Fragment) (k : Nat) (L : Language Char) : Prop where
  agrees : Agrees a.size a r.1
  fills : Fills r.1 a.size r.1.size r.2 L
  size : r.1.size + r.2.width = a.size + k

variable {r r' : Automaton × Fragment}

/-- Building the fragment gives a part with all new states. -/
theorem Weaves.build (h : Weaves a r j L) :
    ∃ a₁ i o R, r.1.build r.2 = (a₁, i, o) ∧ Agrees a.size a a₁ ∧ a₁.size = a.size + j ∧
      Woven a₁ R i o L ∧ ∀ s : Nat, s ∈ R ↔ a.size ≤ s ∧ s < a₁.size := by
  have hle := h.agrees.size
  obtain ⟨a₁, i, o, R, hbf, h₁, hsize, hp, hR⟩ := h.fills.build
  refine ⟨a₁, i, o, R, hbf, h.agrees.trans h₁ hle, hsize.trans h.size, hp, fun s => ?_⟩
  rw [hR s]
  omega

/-- Building two fragments in a row gives two parts with all new states. -/
theorem Weaves.build_both (h : Weaves a r j L) (h' : Weaves r.1 r' k M) :
    ∃ a₁ a₂ i o i' o' R S, r'.1.build r.2 = (a₁, i, o) ∧ a₁.build r'.2 = (a₂, i', o') ∧
      Agrees a.size a a₂ ∧ a₂.size = a.size + (j + k) ∧ Woven a₂ R i o L ∧ Woven a₂ S i' o' M ∧
      Disjoint R S ∧ ∀ s : Nat, s ∈ R ∪ S ↔ a.size ≤ s ∧ s < a₂.size := by
  have hle := h.agrees.size
  have hle' := h'.agrees.size
  obtain ⟨a₁, i, o, R, hbf, h₁, hsize, hp, hR⟩ := (h.fills.agrees h'.agrees).build
  obtain ⟨a₂, i', o', S, hbg, h₂, hsize', hp', hS⟩ := (h'.fills.agrees h₁).build
  have hle₁ := h₁.size
  have hagrees : Agrees a.size a a₂ :=
    (h.agrees.trans h'.agrees hle).trans (h₁.trans h₂ hle₁) (Nat.le_trans hle hle')
  have hcount : a₂.size = a.size + (j + k) := by
    have hj := h.size
    have hk := h'.size
    omega
  refine ⟨a₁, a₂, i, o, i', o', R, S, hbf, hbg, hagrees, hcount, hp.agrees h₂ hp.lt_size, hp',
    Set.disjoint_left.2 fun s hs hs' => ?_, fun s => ?_⟩
  · have hs := (hR s).1 hs
    have hs' := (hS s).1 hs'
    omega
  · rw [Set.mem_union, hR, hS]
    omega

/-- An operator weaves when it joins parts with all new states to one with all new states. -/
theorem Weaves.of_adds {a₁ : Automaton} {links : List (State × State)} {i o : State} {R : Set State}
    (h : Agrees a.size a a₁) (ha : Adds a₁ a' links)
    (hl : ∀ s t : Nat, (s, t) ∈ links → a.size ≤ s) (hp : Woven a' R i o L)
    (hR : ∀ s : Nat, s ∈ R ↔ a.size ≤ s ∧ s < a'.size) (hsize : a'.size = a.size + k) :
    Weaves a (a', .built i o) k L :=
  ⟨h.trans (ha.agrees hl) (Nat.le_refl _), .built hp hR, hsize⟩

open Assembly

theorem weaves_pending (a : Automaton) {l : Label} (hl : l.Proper) :
    Weaves a (a, .pending l) 2 {w | ∃ c, w = [c] ∧ l.admits c = true} :=
  ⟨agrees_refl _ a, .pending hl rfl, rfl⟩

theorem weaves_symbol (a : Automaton) (c : Char) :
    Weaves a (a, .pending (.symbol c)) 2 (Expr.symbol c).language := by
  have hlang : (Expr.symbol c).language = {w | ∃ d, w = [d] ∧ (Label.symbol c).admits d = true} := by
    ext w
    show w = [c] ↔ ∃ d, w = [d] ∧ decide (c = d) = true
    simp
  rw [hlang]
  exact weaves_pending a ⟨c, decide_eq_true rfl⟩

theorem weaves_range (a : Automaton) {lo hi : Char} (h : isRange lo hi = true) :
    Weaves a (a, .pending (.range lo hi)) 2 (Expr.range lo hi).language := by
  have hlang : (Expr.range lo hi).language =
      {w | ∃ c, w = [c] ∧ (Label.range lo hi).admits c = true} := by
    ext w
    show (∃ c : Char, w = [c] ∧ lo.toNat ≤ c.toNat ∧ c.toNat ≤ hi.toNat) ↔
      ∃ c : Char, w = [c] ∧ (decide (lo.toNat ≤ c.toNat) && decide (c.toNat ≤ hi.toNat)) = true
    simp
  rw [hlang]
  exact weaves_pending a (Label.proper_iff.2 ⟨lo, hi, rfl, Label.ascends_range h lo hi rfl⟩)

theorem Weaves.concat (h : Weaves a r j L) (h' : Weaves r.1 r' k M) :
    Weaves a (concat r'.1 r.2 r'.2) (j + k) (L * M) := by
  obtain ⟨a₁, a₂, i, o, i', o', R, S, hbf, hbg, h₂, hsize, hp, hp', hd, hRS⟩ := h.build_both h'
  obtain ⟨a', he, ha, hs⟩ := concat_spec hbf hbg (hp.lt_size o hp.exit_mem)
  rw [he]
  refine .of_adds h₂ ha (fun s t hst => ?_) (hp.concat hp' hd ha) (fun s => ?_) (hs.trans hsize)
  · cases List.mem_singleton.1 hst
    exact ((hRS o).1 (.inl hp.exit_mem)).1
  · rw [hRS s, hs]

theorem Weaves.alternate (h : Weaves a r j L) (h' : Weaves r.1 r' k M) :
    Weaves a (alternate r'.1 r.2 r'.2) (j + k + 2) (L + M) := by
  obtain ⟨a₁, a₂, i, o, i', o', R, S, hbf, hbg, h₂, hsize, hp, hp', hd, hRS⟩ := h.build_both h'
  obtain ⟨a', he, ha, hs⟩ :=
    alternate_spec hbf hbg (hp.lt_size o hp.exit_mem) (hp'.lt_size o' hp'.exit_mem)
  have hx : a₂.size < a'.size := by omega
  have hy : a₂.size + 1 < a'.size := by omega
  have hpart := hp.alternate hp' hd (Nat.le_refl _) (Nat.le_succ _)
    (Nat.ne_of_lt (Nat.lt_succ_self _)) ha hx hy
  rw [he]
  refine .of_adds h₂ ha (fun s t hst => ?_) hpart (fun s => ?_) (by omega)
  · simp only [List.mem_cons, Prod.mk.injEq, List.not_mem_nil, or_false] at hst
    rcases hst with ⟨rfl, -⟩ | ⟨rfl, -⟩ | ⟨rfl, -⟩ | ⟨rfl, -⟩
    · exact ((hRS _).1 (.inr hp'.exit_mem)).1
    · exact ((hRS _).1 (.inl hp.exit_mem)).1
    · omega
    · omega
  · rw [Set.mem_union, hRS s, hs, Set.mem_insert_iff, Set.mem_singleton_iff]
    omega

theorem Weaves.repeated (h : Weaves a r j L) (skip : Bool) :
    Weaves a (repeated skip r.1 r.2) (j + 2) (if skip then L∗ else L * L∗) := by
  obtain ⟨a₁, i, o, R, hbf, h₁, hsize, hp, hR⟩ := h.build
  obtain ⟨a', he, ha, hs⟩ := repeated_spec skip hbf (hp.lt_size o hp.exit_mem)
  have hx : a₁.size < a'.size := by omega
  have hy : a₁.size + 1 < a'.size := by omega
  have hpart := hp.repeated (Nat.le_refl _) (Nat.le_succ _) (Nat.ne_of_lt (Nat.lt_succ_self _))
    (fun s t => mem_roundLinks) ha hx hy
  have hexit := ((hR o).1 hp.exit_mem).1
  rw [he]
  refine .of_adds h₁ ha (fun s t hst => ?_) hpart (fun s => ?_) (by omega)
  · rcases mem_roundLinks.1 hst with ⟨rfl, -⟩ | ⟨rfl, -⟩ | ⟨rfl, -⟩ | ⟨-, rfl, -⟩ <;> omega
  · rw [Set.mem_union, hR s, hs, Set.mem_insert_iff, Set.mem_singleton_iff]
    omega

theorem Weaves.skippable (h : Weaves a r j L) :
    Weaves a (skippable r.1 r.2) (j + 1) (1 + L) := by
  obtain ⟨a₁, i, o, R, hbf, h₁, hsize, hp, hR⟩ := h.build
  obtain ⟨a', he, ha, hs⟩ := skippable_spec hbf
  have hx : a₁.size < a'.size := by omega
  rw [he]
  refine .of_adds h₁ ha (fun s t hst => ?_) (hp.skippable (Nat.le_refl _) ha hx) (fun s => ?_)
    (by omega)
  · simp only [List.mem_cons, Prod.mk.injEq, List.not_mem_nil, or_false] at hst
    rcases hst with ⟨rfl, -⟩ | ⟨rfl, -⟩ <;> omega
  · rw [Set.mem_union, hR s, hs, Set.mem_singleton_iff]
    omega

end Automaton

/-! ## Evaluating the postorder of an expression -/

/-- An expression as a fragment, with the automaton that its operators have grown. -/
def Expr.fragment (a : Automaton) : Expr → Automaton × Fragment
  | symbol c => (a, .pending (.symbol c))
  | range lo hi => (a, .pending (.range lo hi))
  | concat e f =>
    let r := e.fragment a
    let r' := f.fragment r.1
    Assembly.concat r'.1 r.2 r'.2
  | alternation e f =>
    let r := e.fragment a
    let r' := f.fragment r.1
    Assembly.alternate r'.1 r.2 r'.2
  | star e =>
    let r := e.fragment a
    Assembly.repeated true r.1 r.2
  | plus e =>
    let r := e.fragment a
    Assembly.repeated false r.1 r.2
  | optional e =>
    let r := e.fragment a
    Assembly.skippable r.1 r.2

/-- The fragment of an expression stands for its language, and has all states that are added for it. -/
theorem Automaton.weaves_fragment {e : Expr} (h : e.Proper) (a : Automaton) :
    Weaves a (e.fragment a) e.states e.language := by
  induction e generalizing a with
  | symbol c => exact weaves_symbol a c
  | range lo hi => exact weaves_range a h
  | concat e f ih ih' => exact (ih h.1 a).concat (ih' h.2 _)
  | alternation e f ih ih' => exact (ih h.1 a).alternate (ih' h.2 _)
  | star e ih => exact (ih h a).repeated true
  | plus e ih => exact (ih h a).repeated false
  | optional e ih => exact (ih h a).skippable

namespace Assembly

open Automaton Token

variable {b b' b'' : Assembly} {ts us : List Token} {e : Expr}

theorem foldlM_take_append (h : ts.foldlM take b = .ok b') (h' : us.foldlM take b' = .ok b'') :
    (ts ++ us).foldlM take b = .ok b'' := by
  rw [List.foldlM_append, h]
  exact h'

theorem foldlM_take_singleton {t : Token} (h : b.take t = .ok b') :
    [t].foldlM take b = .ok b' := by
  rw [List.foldlM_cons, h]
  rfl

/-- Evaluating the postorder of an expression pushes its fragment. -/
theorem foldlM_take_postorder (h : e.Proper) (b : Assembly) :
    e.postorder.foldlM take b =
      .ok ⟨(e.fragment b.automaton).1, (e.fragment b.automaton).2 :: b.stack⟩ := by
  induction e generalizing b with
  | symbol c => rfl
  | range lo hi =>
    show ((b.push (.pending (.symbol lo))).push (.pending (.symbol hi))).apply .range >>= _ = _
    rw [apply_range h rfl]
    rfl
  | concat e f ih ih' =>
    exact foldlM_take_append (foldlM_take_append (ih h.1 b) (ih' h.2 _)) (foldlM_take_singleton rfl)
  | alternation e f ih ih' =>
    exact foldlM_take_append (foldlM_take_append (ih h.1 b) (ih' h.2 _)) (foldlM_take_singleton rfl)
  | star e ih => exact foldlM_take_append (ih h b) (foldlM_take_singleton rfl)
  | plus e ih => exact foldlM_take_append (ih h b) (foldlM_take_singleton rfl)
  | optional e ih => exact foldlM_take_append (ih h b) (foldlM_take_singleton rfl)

/-- Without tokens the automaton accepts the empty text alone. -/
theorem exists_finish_empty :
    ∃ nfa, finish {} = .ok nfa ∧ ∀ w, nfa.acceptsByAnyPath w = true ↔ w = [] := by
  have hi : (({} : Automaton).addState).Inert := inert_empty.addState
  have hlt : ({} : Automaton).size < (({} : Automaton).addState).size := by
    rw [size_addState]
    exact Nat.lt_succ_self _
  refine ⟨_, finish_nil rfl, fun w => ?_⟩
  rw [acceptsByAnyPath_iff (wellFormed_completed hi hlt) rfl]
  constructor
  · rintro ⟨t, ht, -⟩
    have hsink : ∀ r, r ∉ ((({} : Automaton).addState).completed 0 0).arrows 0 := by
      intro r
      rw [arrows_completed, arrows_addState]
      exact not_mem_arrows_of_le (Nat.le_refl _) r
    rcases (adds_refl _).path_cases hsink ht with ⟨hw, -⟩ | ⟨u, hu, -⟩
    · exact hw
    · cases hu
  · rintro rfl
    exact ⟨_, .nil _, (accepting_completed hi hlt).2 rfl⟩

end Assembly

/-- The postorder of an expression is evaluated to its fragment alone. -/
theorem Automaton.ofPostorder_render_postorder {e : Expr} (h : e.Proper) :
    ofPostorder (Token.render e.postorder) =
      Assembly.finish ⟨(e.fragment {}).1, [(e.fragment {}).2]⟩ := by
  unfold ofPostorder
  rw [Token.scanSingly_render (Expr.single_postorder h)]
  show (e.postorder.foldlM Assembly.take {} >>= fun b => b.finish) = _
  rw [Assembly.foldlM_take_postorder h]
  rfl

theorem Expr.sound_fragment {e : Expr} (h : e.Proper) :
    Assembly.Sound ⟨(e.fragment {}).1, [(e.fragment {}).2]⟩ :=
  Assembly.sound_empty.foldlM_take (single_postorder h) (Assembly.foldlM_take_postorder h {})

namespace Automaton

variable {e : Expr}

/-- The automaton of an expression is one woven part, from its initial to its accepting state. -/
theorem exists_woven_of_postorder (h : e.Proper) :
    ∃ nfa i o, ofPostorder (Token.render e.postorder) = .ok nfa ∧
      Woven nfa {s | s < nfa.size} i o e.language ∧ nfa.initial = some i ∧
      (∀ s, nfa.accepting s = true ↔ s = o) ∧ nfa.size = e.states := by
  have hsound := Expr.sound_fragment h
  obtain ⟨a₁, i, o, R, hbf, -, hsize, hp, hR⟩ := (weaves_fragment h {}).build
  obtain ⟨a₂, i', o', hbf', hi, -, -, -⟩ := hsound.inert.build (hsound.stack _ List.mem_cons_self)
  cases hbf.symm.trans hbf'
  have hfinish : Assembly.finish ⟨(e.fragment {}).1, [(e.fragment {}).2]⟩ =
      .ok (a₁.completed i o) := Assembly.finish_singleton rfl hbf
  have hall : R = {s | s < (a₁.completed i o).size} := by
    ext s
    rw [hR s, Set.mem_ofPred_eq, size_completed]
    exact and_iff_right (Nat.zero_le s)
  refine ⟨a₁.completed i o, i, o, (ofPostorder_render_postorder h).trans hfinish, ?_, rfl,
    fun s => accepting_completed hi (hp.lt_size o hp.exit_mem), ?_⟩
  · rw [← hall]
    exact hp.congr (fun s _ r => by rw [arrows_completed]) (Nat.le_of_eq size_completed.symm)
  · rw [size_completed, hsize]
    exact Nat.zero_add _

/-- The automaton of the postorder of an expression accepts its language. -/
theorem exists_ofPostorder (h : e.Proper) :
    ∃ nfa, ofPostorder (Token.render e.postorder) = .ok nfa ∧
      ∀ w, nfa.acceptsByAnyPath w = true ↔ w ∈ e.language := by
  obtain ⟨nfa, i, o, hnfa, hp, hinitial, haccepting, -⟩ := exists_woven_of_postorder h
  have hw : nfa.WellFormed := by
    refine ⟨fun s r hr => hp.closed s (lt_size_of_mem_arrows hr) r hr, fun s hs => ?_⟩
    cases hinitial.symm.trans hs
    exact hp.entry_mem
  refine ⟨nfa, hnfa, fun w => ?_⟩
  rw [acceptsByAnyPath_iff hw hinitial, ← hp.reads w]
  constructor
  · rintro ⟨t, ht, hacc⟩
    rwa [(haccepting t).1 hacc] at ht
  · intro hpath
    exact ⟨o, hpath, (haccepting o).2 rfl⟩

end Automaton

end PatternAutomata
