import PatternAutomata.Proofs.Thompson

/-!
# What a postorder text is evaluated to

While a text is evaluated, the fragments on the stack are the expressions that have been read, and the
tokens read so far are their postorders one after the other (`Stacked`).  Each token keeps it so
(`Stacked.take`); for the range operator it matters that a symbol waits as a label only as long as no
operator has taken it.  One fragment at the end is one expression, whose automaton has no state beside
the ways from its initial to its accepting state:

    ofPostorder t succeeds ↔ t is empty or Postorder t e                    (ofPostorder_evaluates)
    every state of what it gives lies on a way to an accepting one        (threaded_of_ofPostorder)
-/

namespace PatternAutomata

open Token Computability

/-- Whether a postorder text denotes a language.  No text at all denotes the empty text. -/
inductive PostorderDenotes : List Char → Language Char → Prop where
  | nil : PostorderDenotes [] 1
  | expr {t : List Char} {e : Expr} : Postorder t e → PostorderDenotes t e.language

/-- Whether some tokens are the postorders of the expressions that a stack of fragments was made
from. -/
inductive Stacked : List Token → List Fragment → Prop where
  | nil : Stacked [] []
  | cons {ts : List Token} {stack : List Fragment} {e : Expr} {f : Fragment} :
    Stacked ts stack → e.Proper → (∀ c, f = .pending (.symbol c) → e = .symbol c) →
      Stacked (ts ++ e.postorder) (f :: stack)

/-- Whether a fragment is built, as every fragment is that comes from an operator. -/
def Fragment.IsBuilt : Fragment → Prop
  | .pending _ => False
  | .built _ _ => True

namespace Assembly

theorem isBuilt_unaryPart (o : Operator) (a : Automaton) (f : Fragment) :
    (unaryPart o a f).2.IsBuilt := by
  cases o <;> exact trivial

theorem isBuilt_binaryPart (o : Operator) (a : Automaton) (f g : Fragment) :
    (binaryPart o a f g).2.IsBuilt := by
  cases o <;> exact trivial

end Assembly

namespace Stacked

open Assembly

variable {ts us : List Token} {b b' : Assembly}

theorem cons_built {stack : List Fragment} {e : Expr} {f : Fragment} (h : Stacked ts stack)
    (he : e.Proper) (hf : f.IsBuilt) : Stacked (ts ++ e.postorder) (f :: stack) :=
  h.cons he fun c hc => by
    rw [hc] at hf
    exact hf.elim

theorem take {t : Token} (h : Stacked ts b.stack) (ht : t.Single) (hb : b.take t = .ok b') :
    Stacked (ts ++ [t]) b'.stack := by
  cases t with
  | symbol c =>
    cases hb
    exact h.cons (e := .symbol c) ht fun d hd => by
      cases hd
      rfl
  | range lo hi => exact absurd ht id
  | op o =>
    rcases apply_cases hb with ⟨ho, f, rest, hs, rfl⟩ | ⟨ho, hr, f, g, rest, hs, rfl⟩ |
      ⟨rfl, lo, hi, rest, hr, hs, rfl⟩
    · rw [hs] at h
      cases h with
      | @cons ts _ e _ h he _ =>
        rw [List.append_assoc, ← Expr.postorder_unary ho]
        exact h.cons_built (Expr.proper_unary o he) (isBuilt_unaryPart ..)
    · rw [hs] at h
      cases h with
      | @cons _ _ e' _ h he' _ =>
        cases h with
        | @cons ts _ e _ h he _ =>
          rw [List.append_assoc, List.append_assoc, ← List.append_assoc e.postorder,
            ← Expr.postorder_binary ho hr]
          exact h.cons_built (Expr.proper_binary o he he') (isBuilt_binaryPart ..)
    · rw [hs] at h
      cases h with
      | cons h _ hhi =>
        cases h with
        | @cons ts _ _ _ h _ hlo =>
          cases hhi hi rfl
          cases hlo lo rfl
          rw [List.append_assoc, List.append_assoc]
          exact h.cons (e := .range lo hi) hr fun c hc => by cases hc
  | leftParen => cases hb
  | rightParen => cases hb

theorem foldlM_take (h : Stacked ts b.stack) (hus : ∀ t ∈ us, t.Single)
    (hb : us.foldlM Assembly.take b = .ok b') : Stacked (ts ++ us) b'.stack := by
  induction us generalizing ts b with
  | nil =>
    cases hb
    rwa [List.append_nil]
  | cons t us ih =>
    rw [List.foldlM_cons] at hb
    obtain ⟨c, hc, hb⟩ := bind_eq_ok_iff.1 hb
    have hstep := ih (h.take (hus t List.mem_cons_self) hc)
      (fun u hu => hus u (List.mem_cons_of_mem t hu)) hb
    rwa [List.append_assoc] at hstep

/-- One fragment is one expression. -/
theorem exists_postorder {stack : List Fragment} (h : Stacked ts stack) (hlen : stack.length = 1) :
    ∃ e : Expr, e.Proper ∧ ts = e.postorder := by
  cases h with
  | nil => cases hlen
  | @cons ts stack e f h he _ =>
    cases List.eq_nil_of_length_eq_zero (Nat.succ.inj hlen)
    cases h
    exact ⟨e, he, rfl⟩

end Stacked

/-- What can be evaluated with one fragment left is the postorder of an expression. -/
theorem exists_postorder_of_evaluates {ts : List Token} (hts : ∀ t ∈ ts, t.Single)
    (h : Evaluates 0 ts 1) : ∃ e : Expr, e.Proper ∧ ts = e.postorder := by
  obtain ⟨b, hb, hlen⟩ := Assembly.exists_take (b := {}) h rfl
  exact (Stacked.nil.foldlM_take hts hb).exists_postorder hlen

namespace Automaton

variable {t : List Char} {a : Automaton}

/-- Only the texts of the grammar are evaluated. -/
theorem exists_postorderDenotes (h : ofPostorder t = .ok a) : ∃ L, PostorderDenotes t L := by
  obtain ⟨ts, hts, h⟩ := bind_eq_ok_iff.1 h
  obtain ⟨b, hb, h⟩ := bind_eq_ok_iff.1 h
  have hsingle := single_of_scanSingly hts
  have hstacked : Stacked ([] ++ ts) b.stack := Stacked.nil.foldlM_take hsingle hb
  rw [List.nil_append] at hstacked
  have hlen := (Assembly.finish_spec (Assembly.sound_empty.foldlM_take hsingle hb) h).1
  rw [← render_scanSingly hts]
  by_cases hnil : b.stack = []
  · rw [hnil] at hstacked
    cases hstacked
    exact ⟨1, .nil⟩
  · have hpos := List.length_pos_iff.2 hnil
    obtain ⟨e, he, rfl⟩ := hstacked.exists_postorder (by omega)
    exact ⟨e.language, .expr (postorder_iff.2 ⟨he, rfl⟩)⟩

/-- The texts of the grammar are evaluated to automata for their languages. -/
theorem exists_ofPostorder_of_denotes {L : Language Char} (h : PostorderDenotes t L) :
    ∃ a, ofPostorder t = .ok a ∧ ∀ w, a.acceptsByAnyPath w = true ↔ w ∈ L := by
  cases h with
  | nil => exact Assembly.exists_finish_empty
  | expr h =>
    obtain ⟨he, rfl⟩ := postorder_iff.1 h
    exact exists_ofPostorder he

/-- A text is evaluated when it is empty or of the grammar, and then to an automaton whose simulation
accepts its language. -/
theorem ofPostorder_evaluates (t : List Char) :
    ((∃ a, ofPostorder t = .ok a) ↔ t = [] ∨ ∃ e, Postorder t e) ∧
      ∀ L, PostorderDenotes t L →
        ∃ a, ofPostorder t = .ok a ∧ ∀ w, a.acceptsByAnyPath w = true ↔ w ∈ L := by
  refine ⟨⟨?_, ?_⟩, fun L hL => exists_ofPostorder_of_denotes hL⟩
  · rintro ⟨a, ha⟩
    obtain ⟨L, hL⟩ := exists_postorderDenotes ha
    cases hL with
    | nil => exact .inl rfl
    | expr h => exact .inr ⟨_, h⟩
  · intro h
    obtain ⟨L, hL⟩ : ∃ L, PostorderDenotes t L := by
      rcases h with rfl | ⟨e, he⟩
      · exact ⟨1, .nil⟩
      · exact ⟨e.language, .expr he⟩
    obtain ⟨a, ha, -⟩ := exists_ofPostorder_of_denotes hL
    exact ⟨a, ha⟩

/-- A letter up to y with a z behind it, once or not at all. -/
theorem ofPostorder_evaluates_range :
    ∃ a, ofPostorder ['a', 'y', '-', 'z', '&', '?'] = .ok a ∧ a.acceptsByAnyPath [] = true ∧
      a.acceptsByAnyPath ['c', 'z'] = true ∧ a.acceptsByAnyPath ['z'] = false := by
  have h : Postorder ((['a', 'y', '-'] ++ ['z'] ++ ['&']) ++ ['?']) _ :=
    .optional (.concat (.range (by decide)) (.symbol (by decide)))
  obtain ⟨a, ha, hlang⟩ := (ofPostorder_evaluates _).2 _ (.expr h)
  refine ⟨a, ha, ?_, ?_, ?_⟩
  · rw [hlang]
    exact .inl rfl
  · rw [hlang]
    exact .inr (Language.mem_mul.2 ⟨['c'], ⟨'c', rfl, by decide, by decide⟩, ['z'], rfl, rfl⟩)
  · rw [Bool.eq_false_iff, Ne, hlang]
    rintro (hnil | hpair)
    · cases hnil
    · obtain ⟨u, hu, v, hv, huv⟩ := Language.mem_mul.1 hpair
      obtain ⟨c, rfl, -⟩ := hu
      have hv : v = ['z'] := hv
      subst hv
      cases huv

/-! ## Nothing is left over -/

theorem exists_woven_of_ofPostorder {e : Expr} (ht : Postorder t e) (h : ofPostorder t = .ok a) :
    ∃ i o, Woven a {s | s < a.size} i o e.language ∧ a.initial = some i ∧
      (∀ s, a.accepting s = true ↔ s = o) ∧ a.size = e.states := by
  obtain ⟨he, rfl⟩ := postorder_iff.1 ht
  obtain ⟨a', i, o, ha', hp⟩ := exists_woven_of_postorder he
  cases ha'.symm.trans h
  exact ⟨i, o, hp⟩

theorem ofPostorder_nil : ofPostorder [] = .ok (({} : Automaton).addState.completed 0 0) := rfl

/-- Without any text there is one state, which is initial and accepts. -/
theorem ofPostorder_nil_spec (h : ofPostorder [] = .ok a) :
    a.size = 1 ∧ a.initial = some 0 ∧ (∀ s, a.accepting s = true ↔ s = 0) ∧
      ∀ s, a.arrows s = [] := by
  cases ofPostorder_nil.symm.trans h
  refine ⟨rfl, rfl, fun s => accepting_completed inert_empty.addState ?_, fun s => ?_⟩
  · rw [size_addState]
    exact Nat.lt_succ_self _
  · rw [arrows_completed, arrows_addState]
    exact arrows_of_le (Nat.zero_le s)

theorem eq_nil_or_exists_postorder (h : ofPostorder t = .ok a) :
    t = [] ∨ ∃ e, Postorder t e := by
  obtain ⟨L, hL⟩ := exists_postorderDenotes h
  cases hL with
  | nil => exact .inl rfl
  | expr he => exact .inr ⟨_, he⟩

/-- Whether every state lies on a way from the initial state to an accepting one. -/
def Threaded (a : Automaton) : Prop :=
  ∃ i, a.initial = some i ∧ ∀ s < a.size, a.Leads i s ∧ ∃ o, a.accepting o = true ∧ a.Leads s o

/-- Nothing is left over in the automaton of a postorder text. -/
theorem threaded_of_ofPostorder (h : ofPostorder t = .ok a) :
    a.Threaded := by
  rcases eq_nil_or_exists_postorder h with rfl | ⟨e, he⟩
  · obtain ⟨hsize, hinitial, haccepting, -⟩ := ofPostorder_nil_spec h
    refine ⟨0, hinitial, fun s hs => ?_⟩
    have hzero : s = 0 := by
      rw [hsize] at hs
      exact Nat.lt_one_iff.1 hs
    rw [hzero]
    exact ⟨leads_refl a 0, 0, (haccepting 0).2 rfl, leads_refl a 0⟩
  · obtain ⟨i, o, hp, hinitial, haccepting, -⟩ := exists_woven_of_ofPostorder he h
    exact ⟨i, hinitial, fun s hs => ⟨hp.reached s hs, o, (haccepting o).2 rfl, hp.left s hs⟩⟩

/-- Some text is accepted. -/
theorem Threaded.exists_accepted (h : a.Threaded) (hw : a.WellFormed) :
    ∃ w, a.acceptsByAnyPath w = true := by
  obtain ⟨i, hi, hthread⟩ := h
  obtain ⟨-, o, ho, w, hpath⟩ := hthread i (hw.initial_lt i hi)
  exact ⟨w, (acceptsByAnyPath_iff hw hi).2 ⟨o, hpath, ho⟩⟩

end Automaton

end PatternAutomata
