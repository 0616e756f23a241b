import PatternAutomata.Proofs.Equivalence
import PatternAutomata.Proofs.Record

/-!
# Compiled automata can be written down

What is built from a pattern has default names and reads symbols only, and so do its deterministic
automaton and its minimal one: a state is named after its number, and a label that admits a character
leads where a label of the input that admits it leads.  So no two states share a name, no label is the
sign of the empty move, and the records of these automata keep the graph
(`toRecord_keeps_graph`).
-/

namespace PatternAutomata

open Token

namespace Automaton

/-! ## Names and characters -/

/-- Every state is named after its number. -/
def DefaultNamed (a : Automaton) : Prop := ∀ s < a.size, a.name s = defaultName s

/-- Every character that a label admits passes a test. -/
def ReadsOnly (a : Automaton) (p : Char → Bool) : Prop :=
  ∀ s, ∀ r ∈ a.arrows s, ∀ c, r.label.admits c = true → p c = true

variable {a : Automaton} {p : Char → Bool}

theorem defaultName_inj {m n : Nat} : defaultName m = defaultName n ↔ m = n := by
  refine ⟨fun e => ?_, congrArg _⟩
  have hrepr : m.repr = n.repr := by simpa [defaultName] using e
  have hdigits := congrArg String.toList hrepr
  rw [Nat.toList_repr, Nat.toList_repr] at hdigits
  rw [← @Nat.ofDigitChars_toDigits 10 m (by decide) (by decide), hdigits,
    Nat.ofDigitChars_toDigits (by decide) (by decide)]

theorem DefaultNamed.uniquelyNamed (h : a.DefaultNamed) : a.UniquelyNamed := by
  intro s hs t ht e
  rw [h s hs, h t ht] at e
  exact defaultName_inj.1 e

/-- The sign of the empty move is not a symbol. -/
theorem ReadsOnly.spellable (h : a.ReadsOnly isSymbol) : a.Spellable := by
  intro s r hr e
  have hsymbol := h s r hr Label.epsilonChar (by simp [e, Label.admits])
  revert hsymbol
  decide

/-! ## Determinizing and minimizing -/

theorem readsOnly_toAutomaton {κ : Type} [StrictTotal κ] {f : κ → List (Label × κ)} {first : κ}
    {e : Exploration κ} {origin : κ → StateSet} {accepting : κ → Bool}
    (he : Exploration.Explored f first e)
    (h : ∀ k, ∀ m ∈ f k, ∀ c, m.1.admits c = true → p c = true) :
    (e.toAutomaton origin accepting).ReadsOnly p := by
  intro i r hr c hc
  have hi : i < e.met.keys.size := by simpa using lt_size_of_mem_arrows hr
  obtain ⟨k, -, hm⟩ := (he.mem_arrows (Array.getElem?_eq_getElem hi)).1 hr
  exact h _ _ hm c hc

theorem defaultNamed_determinize (a : Automaton) : a.determinize.DefaultNamed := by
  cases hs : a.initial with
  | none =>
    rw [determinize_of_initial_eq_none hs]
    intro s hs
    exact absurd hs (Nat.not_lt_zero s)
  | some s =>
    obtain ⟨e, -, he⟩ := explored_determinize hs
    rw [he]
    exact fun i hi => Exploration.name_toAutomaton hi

theorem ReadsOnly.determinize (hf : a.Forward) (h : a.ReadsOnly p) : a.determinize.ReadsOnly p := by
  cases hs : a.initial with
  | none =>
    rw [determinize_of_initial_eq_none hs]
    intro s r hr
    rw [arrows_empty] at hr
    cases hr
  | some s =>
    obtain ⟨e, hexplored, he⟩ := explored_determinize hs
    rw [he]
    refine readsOnly_toAutomaton hexplored fun S m hm c hc => ?_
    have hne := (exists_mem_subsetMoves.1 ⟨m, hm, hc, rfl⟩).1
    obtain ⟨t, ht⟩ := List.exists_mem_of_ne_nil _ hne
    obtain ⟨u, -, l, hr, hl⟩ := mem_move.1 ((mem_openAt_spans hf).1 ht)
    exact h u _ hr c hl

theorem minimize_spec (hw : a.WellFormed) (hd : a.isDeterministic = true) (hf : a.Forward)
    {s : State} (hs : a.initial = some s) {m : Automaton} (hm : a.minimize = .ok m) :
    m.WellFormed ∧ m.DefaultNamed ∧ (a.ReadsOnly p → m.ReadsOnly p) := by
  obtain ⟨q, first, e, h, hfirst, he, hq⟩ := exists_minimize hw hd hf hs
  rw [hq] at hm
  cases hm
  refine ⟨he.wellFormed, fun i hi => Exploration.name_toAutomaton hi, fun h => ?_⟩
  refine readsOnly_toAutomaton he fun i m hm c hc => ?_
  have hx := (isDeterministic_iff hf).1 hd
  unfold blockMoves at hm
  split at hm
  · cases hm
  · next u _ _ =>
    obtain ⟨t, ht, -⟩ := (exists_mem_signatureOf (hx u)).1 ⟨m, hm, hc, rfl⟩
    obtain ⟨l, hr, hl⟩ := (step_eq_some_iff (hx u)).1 ht
    exact h u _ hr c hl

end Automaton

/-! ## Automata under construction -/

/-- Whether the label of a fragment that is not built reads symbols only. -/
def Fragment.Plain : Fragment → Prop
  | .pending l => ∀ c, l.admits c = true → isSymbol c = true
  | .built _ _ => True

namespace Automaton

variable {a : Automaton} {s t : State} {l : Label} {f : Fragment}

/-- Default names, and labels that read symbols only. -/
structure Plain (a : Automaton) : Prop where
  names : a.DefaultNamed
  labels : a.ReadsOnly isSymbol

theorem name_addState_size (a : Automaton) : a.addState.name a.size = defaultName a.size := by
  have he : a.size = a.nodes.size := rfl
  unfold name addState addNode
  rw [Array.getElem?_push, if_pos he]

theorem name_addState_of_lt (hs : s < a.size) : a.addState.name s = a.name s := by
  have hne : s ≠ a.nodes.size := Nat.ne_of_lt hs
  unfold name addState addNode
  rw [Array.getElem?_push, if_neg hne]

theorem name_modifyNode {g : Node → Node} (h : ∀ n, (g n).name = n.name) (u : State) :
    (a.modifyNode s g).name u = a.name u := by
  unfold name modifyNode
  rw [Array.getElem?_modify]
  by_cases e : s = u
  · subst e
    rw [if_pos rfl]
    cases a.nodes[s]? with
    | none => rfl
    | some n => exact h n
  · rw [if_neg e]

theorem mem_arrows_of_connect {r : Arrow} {u : State} (h : r ∈ (a.connect s l t).arrows u) :
    r = ⟨l, t⟩ ∨ r ∈ a.arrows u := by
  by_cases hs : s < a.size
  · exact ((mem_arrows_connect hs).1 h).imp_left And.right
  · have hu : u < a.size := by simpa using lt_size_of_mem_arrows h
    have hne : s ≠ u := fun e => hs (e ▸ hu)
    unfold arrows connect modifyNode at h
    rw [Array.getElem?_modify, if_neg hne] at h
    exact .inr h

theorem plain_empty : Plain {} := by
  refine ⟨fun s hs => absurd hs (Nat.not_lt_zero s), fun s r hr => ?_⟩
  have hs := lt_size_of_mem_arrows hr
  exact absurd hs (Nat.not_lt_zero s)

theorem Plain.addState (h : a.Plain) : a.addState.Plain := by
  refine ⟨fun s hs => ?_, fun s r hr => ?_⟩
  · rw [size_addState] at hs
    rcases Nat.lt_succ_iff_lt_or_eq.1 hs with hs | rfl
    · rw [name_addState_of_lt hs, h.names s hs]
    · exact name_addState_size a
  · rw [arrows_addState] at hr
    exact h.labels s r hr

theorem Plain.connect (h : a.Plain) (hl : ∀ c, l.admits c = true → isSymbol c = true) :
    (a.connect s l t).Plain := by
  refine ⟨fun u hu => ?_, fun u r hr => ?_⟩
  · rw [size_connect] at hu
    rw [← h.names u hu]
    exact name_modifyNode (by simp) u
  · rcases mem_arrows_of_connect hr with rfl | hr
    · exact hl
    · exact h.labels u r hr

theorem Plain.link (h : a.Plain) : (a.link s t).Plain :=
  h.connect fun _ hc => by cases hc

theorem Plain.build (h : a.Plain) (hf : f.Plain) : (a.build f).1.Plain := by
  cases f with
  | pending l => exact h.addState.addState.connect hf
  | built entry exit => exact h

theorem Plain.completed (h : a.Plain) : (a.completed s t).Plain := by
  refine ⟨fun u hu => ?_, fun u r hr => ?_⟩
  · rw [size_completed] at hu
    rw [← h.names u hu]
    exact name_modifyNode (g := fun n => { n with accepting := true }) (fun _ => rfl) u
  · rw [arrows_completed] at hr
    exact h.labels u r hr

end Automaton

/-- Between two symbols of one kind there are symbols only. -/
theorem isSymbol_of_admits_range {lo hi c : Char} (h : isRange lo hi = true)
    (hc : (Label.range lo hi).admits c = true) : isSymbol c = true := by
  obtain ⟨_, _, ⟨⟩, hle, hge⟩ := Label.admits_iff.1 hc
  rw [isRange_iff] at h
  rw [isSymbol_iff]
  simp only [isUpper_iff, isLower_iff, isDigit_iff] at h ⊢
  omega

namespace Assembly

open Automaton

variable {a : Automaton} {b b' : Assembly} {f g : Fragment}

theorem plain_concat (h : a.Plain) (hf : f.Plain) (hg : g.Plain) :
    (concat a f g).1.Plain ∧ (concat a f g).2.Plain :=
  ⟨((h.build hf).build hg).link, trivial⟩

theorem plain_alternate (h : a.Plain) (hf : f.Plain) (hg : g.Plain) :
    (alternate a f g).1.Plain ∧ (alternate a f g).2.Plain :=
  ⟨((h.build hf).build hg).addState.addState.link.link.link.link, trivial⟩

theorem plain_repeated (skip : Bool) (h : a.Plain) (hf : f.Plain) :
    (repeated skip a f).1.Plain ∧ (repeated skip a f).2.Plain := by
  cases skip with
  | true => exact ⟨(h.build hf).addState.addState.link.link.link.link, trivial⟩
  | false => exact ⟨(h.build hf).addState.addState.link.link.link, trivial⟩

theorem plain_skippable (h : a.Plain) (hf : f.Plain) :
    (skippable a f).1.Plain ∧ (skippable a f).2.Plain :=
  ⟨(h.build hf).addState.link.link, trivial⟩

theorem plain_unaryPart (h : a.Plain) (hf : f.Plain) (o : Operator) :
    (unaryPart o a f).1.Plain ∧ (unaryPart o a f).2.Plain := by
  cases o with
  | star => exact plain_repeated true h hf
  | plus => exact plain_repeated false h hf
  | _ => exact plain_skippable h hf

theorem plain_binaryPart (h : a.Plain) (hf : f.Plain) (hg : g.Plain) (o : Operator) :
    (binaryPart o a f g).1.Plain ∧ (binaryPart o a f g).2.Plain := by
  cases o with
  | concat => exact plain_concat h hf hg
  | _ => exact plain_alternate h hf hg

/-- The automaton is plain, and so are the fragments that wait. -/
def Plain (b : Assembly) : Prop := b.automaton.Plain ∧ ∀ f ∈ b.stack, f.Plain

theorem Plain.take {t : Token} (h : Plain b) (ht : t.Single) (hb : b.take t = .ok b') :
    Plain b' := by
  -- What is pushed is plain, and what waits below stays.
  have hpush : ∀ {r : Automaton × Fragment} {rest : List Fragment}, r.1.Plain ∧ r.2.Plain →
      (∀ k ∈ rest, k ∈ b.stack) → Plain ⟨r.1, r.2 :: rest⟩ := fun hr hrest =>
    ⟨hr.1, List.forall_mem_cons.2 ⟨hr.2, fun k hk => h.2 k (hrest k hk)⟩⟩
  cases t with
  | symbol c =>
    cases hb
    have hc : Fragment.Plain (.pending (.symbol c)) := fun d hd => by
      rw [← of_decide_eq_true hd]
      exact ht
    exact hpush (r := (b.automaton, _)) ⟨h.1, hc⟩ fun _ hk => hk
  | range lo hi => exact absurd ht id
  | op o =>
    rcases apply_cases hb with ⟨-, f, rest, hs, rfl⟩ | ⟨-, -, f, g, rest, hs, rfl⟩ |
      ⟨-, lo, hi, rest, hr, hs, rfl⟩
    · have hf := h.2 f (by simp [hs])
      exact hpush (plain_unaryPart h.1 hf o) fun k hk => by simp [hs, hk]
    · have hf := h.2 f (by simp [hs])
      have hg := h.2 g (by simp [hs])
      exact hpush (plain_binaryPart h.1 hf hg o) fun k hk => by simp [hs, hk]
    · have hrange : Fragment.Plain (.pending (.range lo hi)) := fun c hc =>
        isSymbol_of_admits_range hr hc
      exact hpush (r := (b.automaton, _)) ⟨h.1, hrange⟩ fun k hk => by simp [hs, hk]
  | leftParen => cases hb
  | rightParen => cases hb

theorem Plain.finish {nfa : Automaton} (h : Plain b) (hb : b.finish = .ok nfa) : nfa.Plain := by
  match hs : b.stack with
  | [] =>
    rw [finish_nil hs] at hb
    cases hb
    exact h.1.addState.completed
  | [f] =>
    rw [finish_singleton hs rfl] at hb
    cases hb
    exact (h.1.build (h.2 f (by simp [hs]))).completed
  | f :: g :: rest =>
    unfold Assembly.finish at hb
    rw [hs] at hb
    cases hb

end Assembly

/-! ## Every automaton of a pattern -/

theorem Automaton.ofPostorder_spec {text : List Char} {nfa : Automaton}
    (h : ofPostorder text = .ok nfa) :
    nfa.WellFormed ∧ nfa.Forward ∧ (∃ s, nfa.initial = some s) ∧ nfa.Plain := by
  obtain ⟨ts, hts, h⟩ := bind_eq_ok_iff.1 h
  obtain ⟨b, hb, h⟩ := bind_eq_ok_iff.1 h
  have hsingle := Token.single_of_scanSingly hts
  have hplain : b.Plain := foldlM_keeps (P := Assembly.Plain)
    ⟨plain_empty, fun f hf => by cases hf⟩
    (fun t ht _ _ hc hc' => hc.take (hsingle t ht) hc') hb
  obtain ⟨-, hw, hf, hs⟩ :=
    Assembly.finish_spec (Assembly.sound_empty.foldlM_take hsingle hb) h
  exact ⟨hw, hf, hs, hplain.finish h⟩

theorem Automaton.Plain.writable {a : Automaton} (h : a.Plain) : a.UniquelyNamed ∧ a.Spellable :=
  ⟨h.names.uniquelyNamed, h.labels.spellable⟩

theorem Compiler.plain_of_stages {c : Compiler} {text : List Char} {st : Stages}
    (h : c.stages text = .ok st) :
    st.nfa.Plain ∧ st.dfa.Plain ∧ st.minimal.WellFormed ∧ st.minimal.Plain := by
  obtain ⟨hnfa, -, hminimal⟩ := stages_spec h
  obtain ⟨x, y, -, -, hy⟩ := assembles_iff.1 hnfa
  obtain ⟨-, hf, ⟨s, hs⟩, hplain⟩ := Automaton.ofPostorder_spec hy
  have hdfa : st.dfa.Plain := by
    rw [dfa_eq_of_stages h]
    exact ⟨Automaton.defaultNamed_determinize _, hplain.labels.determinize hf⟩
  rw [dfa_eq_of_stages h] at hminimal
  obtain ⟨hw, hnames, hlabels⟩ := Automaton.minimize_spec (p := isSymbol)
    (Automaton.wellFormed_determinize _) (Automaton.isDeterministic_determinize _)
    (Automaton.forward_determinize _) (Automaton.initial_determinize hs) hminimal
  exact ⟨hplain, hdfa, hw, hnames, hlabels (hplain.labels.determinize hf)⟩

/-- A record keeps everything of an automaton but the numbers of its states, when no two states share
a name and no label is the sign of the empty move taken as a symbol.  So it is with every automaton
that is built from a postorder text or compiled from a pattern. -/
theorem toRecord_keeps_graph :
    (∀ a : Automaton, a.WellFormed → a.UniquelyNamed → a.Spellable →
      ∃ b, a.toRecord.toAutomaton = .ok b ∧ b.WellFormed ∧ b.UniquelyNamed ∧ a.SameByName b) ∧
    (∀ text nfa, Automaton.ofPostorder text = .ok nfa →
      nfa.WellFormed ∧ nfa.UniquelyNamed ∧ nfa.Spellable) ∧
    ∀ (c : Compiler) text m, c.compile text = .ok m →
      m.WellFormed ∧ m.UniquelyNamed ∧ m.Spellable := by
  refine ⟨fun a hw hn hl => Automaton.exists_toAutomaton_toRecord hw hn hl,
    fun text nfa h => ?_, fun c text m h => ?_⟩
  · obtain ⟨hw, -, -, hplain⟩ := Automaton.ofPostorder_spec h
    exact ⟨hw, hplain.writable⟩
  · unfold Compiler.compile at h
    cases hst : c.stages text with
    | error e =>
      rw [hst] at h
      cases h
    | ok st =>
      rw [hst] at h
      cases h
      obtain ⟨-, -, hw, hplain⟩ := Compiler.plain_of_stages hst
      exact ⟨hw, hplain.writable⟩

/-- Names out of order, two destinations of one label, an empty move and a range. -/
def shuffled : Automaton where
  nodes := #[
    { name := "ζ2", arrows := .ofList [⟨.symbol 'a', 1⟩, ⟨.symbol 'a', 2⟩, ⟨.epsilon, 1⟩] },
    { name := "S10", accepting := true, arrows := .ofList [⟨.range 'a' 'ω', 0⟩] },
    { name := "S2", arrows := .ofList [⟨.symbol '-', 2⟩] }]
  initial := some 2

theorem toRecord_keeps_graph_shuffled :
    shuffled.WellFormed ∧ shuffled.UniquelyNamed ∧ shuffled.Spellable ∧
      (∃ b, shuffled.toRecord.toAutomaton = .ok b ∧ b.WellFormed ∧ b.UniquelyNamed ∧
        shuffled.SameByName b) ∧
      (∃ nfa, Automaton.ofPostorder ['a', 'z', '-', '*'] = .ok nfa ∧ nfa.WellFormed ∧
        nfa.UniquelyNamed ∧ nfa.Spellable) ∧
      ∃ m, Compiler.compile {} ['a', '|', 'b'] = .ok m ∧ m.WellFormed ∧ m.UniquelyNamed ∧
        m.Spellable := by
  have hw : shuffled.WellFormed := by decide
  have hn : shuffled.UniquelyNamed := by decide
  have hl : shuffled.Spellable := by decide
  obtain ⟨hkeeps, hbuilt, hcompiled⟩ := toRecord_keeps_graph
  obtain ⟨nfa, hnfa⟩ := exists_eq_ok_of_isOk
    (x := Automaton.ofPostorder ['a', 'z', '-', '*']) (by decide +kernel)
  obtain ⟨m, hm⟩ := exists_eq_ok_of_isOk (x := Compiler.compile {} ['a', '|', 'b'])
    (by decide +kernel)
  exact ⟨hw, hn, hl, hkeeps shuffled hw hn hl, ⟨nfa, hnfa, hbuilt _ _ hnfa⟩,
    m, hm, hcompiled _ _ _ hm⟩

end PatternAutomata
