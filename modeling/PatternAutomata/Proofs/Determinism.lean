import PatternAutomata.Automaton.Determinism
import PatternAutomata.Automaton.Run
import PatternAutomata.Proofs.Span

/-!
# What the test for determinism decides

The test sorts the bounds of the labels out of a state and compares neighbours.  This is as good as
comparing any two of them (`endsBeforeNext_sort_iff`), so a state passes when it has no empty move and
of any two arrows the labels differ, lie apart, and neither begins inside the other without admitting a
character (`isDeterministicAt_iff_pairwise`).

Labels are *exclusive* when each admits a character and no two of them admit the same one.  When no range
runs downwards this is what the test decides:

    a.Forward → (a.isDeterministicAt s = true ↔ a.ExclusiveAt s)               (isDeterministicAt_iff)
    a.Forward → (a.isDeterministic = true ↔ a.Exclusive)                         (isDeterministic_iff)

A step then follows the one arrow that admits the character (`step_eq_some_iff`).
-/

namespace PatternAutomata

open StrictTotal

namespace Label

/-- Whether a label admits some character. -/
def Proper (l : Label) : Prop := ∃ c, l.admits c = true

/-- Whether no character is admitted by both labels. -/
def Apart (l m : Label) : Prop := ∀ c, l.admits c = true → m.admits c = false

theorem Apart.symm {l m : Label} (h : Apart l m) : Apart m l := by
  intro c hm
  by_contra hl
  rw [Bool.not_eq_false] at hl
  rw [h c hl] at hm
  cases hm

theorem Proper.not_apart {l : Label} (h : Proper l) : ¬ Apart l l := by
  intro ha
  obtain ⟨c, hc⟩ := h
  rw [ha c hc] at hc
  cases hc

theorem admits_iff_of_bounds? {l : Label} {lo hi c : Char} (h : l.bounds? = some (lo, hi)) :
    l.admits c = true ↔ lo.toNat ≤ c.toNat ∧ c.toNat ≤ hi.toNat := by
  rw [admits_iff, h]
  constructor
  · rintro ⟨_, _, ⟨⟩, h⟩
    exact h
  · exact fun h => ⟨_, _, rfl, h⟩

theorem proper_iff {l : Label} :
    Proper l ↔ ∃ lo hi, l.bounds? = some (lo, hi) ∧ lo.toNat ≤ hi.toNat := by
  constructor
  · rintro ⟨c, hc⟩
    obtain ⟨lo, hi, hb, h, h'⟩ := admits_iff.1 hc
    exact ⟨lo, hi, hb, Nat.le_trans h h'⟩
  · rintro ⟨lo, hi, hb, h⟩
    exact ⟨lo, (admits_iff_of_bounds? hb).2 ⟨Nat.le_refl _, h⟩⟩

/-- Of two bounds that hold a character each and overlap, the later beginning is admitted by both
labels. -/
theorem apart_iff {l m : Label} {b b' : Char × Char} (hl : l.bounds? = some b)
    (hm : m.bounds? = some b') :
    Apart l m ↔ b.2.toNat < b.1.toNat ∨ b'.2.toNat < b'.1.toNat ∨ b.2.toNat < b'.1.toNat ∨
      b'.2.toNat < b.1.toNat := by
  have hlc := fun c => @admits_iff_of_bounds? l b.1 b.2 c hl
  have hmc := fun c => @admits_iff_of_bounds? m b'.1 b'.2 c hm
  constructor
  · intro h
    have h1 := h b.1
    have h2 := h b'.1
    rw [hlc, ← Bool.not_eq_true, hmc] at h1 h2
    omega
  · intro h c hc
    rw [hlc] at hc
    rw [← Bool.not_eq_true, hmc]
    omega

theorem apart_iff_of_le {l m : Label} {b b' : Char × Char} (hl : l.bounds? = some b)
    (hm : m.bounds? = some b') (hb : b.1.toNat ≤ b.2.toNat) (hb' : b'.1.toNat ≤ b'.2.toNat) :
    Apart l m ↔ b.2.toNat < b'.1.toNat ∨ b'.2.toNat < b.1.toNat := by
  rw [apart_iff hl hm]
  omega

theorem eq_range_of_bounds? {l : Label} {lo hi : Char} (hl : l.bounds? = some (lo, hi))
    (hlt : hi.toNat < lo.toNat) : l = .range lo hi := by
  cases l with
  | epsilon => cases hl
  | symbol c =>
    cases hl
    exact absurd hlt (Nat.lt_irrefl _)
  | range => cases hl; rfl

/-- Labels that lie apart share their bounds only when these descend, and then they are one label. -/
theorem Apart.bounds?_ne {l m : Label} (h : Apart l m) (hne : l ≠ m) {b : Char × Char}
    (hl : l.bounds? = some b) : m.bounds? ≠ some b := by
  intro hm
  have hlt : b.2.toNat < b.1.toNat := by
    have := (apart_iff hl hm).1 h
    omega
  exact hne ((eq_range_of_bounds? hl hlt).trans (eq_range_of_bounds? hm hlt).symm)

/-- Each label admits a character, and no two admit the same one. -/
structure Exclusive (ls : List Label) : Prop where
  proper : ∀ l ∈ ls, l.Proper
  apart : ls.Pairwise Apart

end Label

theorem Span.proper_label_iff {α : Type} {s : Span α} :
    s.label.Proper ↔ s.lo.toNat ≤ s.hi.toNat := by
  rw [Label.proper_iff, label, Label.bounds?_spanning]
  constructor
  · rintro ⟨_, _, ⟨⟩, h⟩
    exact h
  · exact fun h => ⟨_, _, rfl, h⟩

/-- The labels of separate spans are exclusive. -/
theorem Span.Separate.exclusive {α : Type} {l : List (Span α)} (h : Separate l) :
    Label.Exclusive (l.map label) := by
  constructor
  · simp only [List.mem_map]
    rintro _ ⟨s, hs, rfl⟩
    exact proper_label_iff.2 (h.lo_le_hi s hs)
  · refine List.pairwise_map.2 (h.pairwise.imp fun {s t} hst c hc => ?_)
    rw [← Bool.not_eq_true]
    rw [admits_label, covers_iff] at hc ⊢
    omega

/-! ## Neighbours in the order of their bounds -/

/-- Whether of two bounds those that come first end before the others begin. -/
def Cleared (b c : Char × Char) : Prop :=
  (¬ lt c b → b.2.toNat < c.1.toNat) ∧ (¬ lt b c → c.2.toNat < b.1.toNat)

theorem Cleared.symm {b c : Char × Char} (h : Cleared b c) : Cleared c b := ⟨h.2, h.1⟩

/-- In order, bounds that end before their neighbours begin end before all later ones begin. -/
theorem endsBeforeNext_iff_pairwise {l : List (Char × Char)} (h : l.Pairwise fun b c => ¬ lt c b) :
    endsBeforeNext l = true ↔ l.Pairwise fun b c => b.2.toNat < c.1.toNat := by
  induction l with
  | nil => simp [endsBeforeNext]
  | cons b l ih =>
    cases l with
    | nil => simp [endsBeforeNext]
    | cons c l =>
      obtain ⟨-, hcl⟩ := List.pairwise_cons.1 h
      rw [endsBeforeNext, Bool.and_eq_true, decide_eq_true_eq, ih hcl, List.pairwise_cons (a := b)]
      refine and_congr_left fun _ => ⟨fun hbc d hd => ?_, fun hb => hb c List.mem_cons_self⟩
      rcases List.mem_cons.1 hd with rfl | hd
      · exact hbc
      · have hcd : c.1.toNat ≤ d.1.toNat := Nat.le_of_not_lt fun hdc =>
          (List.pairwise_cons.1 hcl).1 d hd (lt_prod_iff.2 (.inl hdc))
        exact Nat.lt_of_lt_of_le hbc hcd

/-- Comparing neighbours in order compares all pairs, also where bounds descend. -/
theorem endsBeforeNext_sort_iff {l : List (Char × Char)} :
    endsBeforeNext (sort l) = true ↔ l.Pairwise Cleared := by
  rw [endsBeforeNext_iff_pairwise (pairwise_sort l), ← (sort_perm l).pairwise_iff Cleared.symm]
  constructor
  · intro h
    refine (h.and (pairwise_sort l)).imp ?_
    rintro b c ⟨hbc, hle⟩
    refine ⟨fun _ => hbc, fun hge => ?_⟩
    cases eq_of_not_lt hge hle
    exact hbc
  · intro h
    refine (h.and (pairwise_sort l)).imp ?_
    rintro b c ⟨hbc, hle⟩
    exact hbc.1 hle

namespace Label

variable {l m : Label}

/-- Whether `m` is a range that runs downwards from inside `l`, behind the first character of `l`. -/
def HoldsEmpty (l m : Label) : Prop :=
  ∃ lo hi lo' hi', l.bounds? = some (lo, hi) ∧ m.bounds? = some (lo', hi') ∧
    hi'.toNat < lo'.toNat ∧ lo.toNat < lo'.toNat ∧ lo'.toNat ≤ hi.toNat

theorem holdsEmpty_iff {b c : Char × Char} (hl : l.bounds? = some b) (hm : m.bounds? = some c) :
    HoldsEmpty l m ↔ c.2.toNat < c.1.toNat ∧ b.1.toNat < c.1.toNat ∧ c.1.toNat ≤ b.2.toNat := by
  simp only [HoldsEmpty, hl, hm, Option.some.injEq]
  constructor
  · rintro ⟨_, _, _, _, rfl, rfl, h⟩
    exact h
  · exact fun h => ⟨_, _, _, _, rfl, rfl, h⟩

/-- What it takes for the bounds of two labels to pass. -/
theorem forall_cleared_iff :
    (∀ b, l.bounds? = some b → ∀ c, m.bounds? = some c → Cleared b c) ↔
      Apart l m ∧ ¬ HoldsEmpty l m ∧ ¬ HoldsEmpty m l := by
  cases hl : l.bounds? with
  | none =>
    cases bounds?_eq_none_iff.1 hl
    simp [Apart, HoldsEmpty, admits, bounds?]
  | some b =>
    cases hm : m.bounds? with
    | none =>
      cases bounds?_eq_none_iff.1 hm
      simp [Apart, HoldsEmpty, admits, bounds?]
    | some c =>
      simp only [Option.some.injEq, forall_eq']
      rw [holdsEmpty_iff hl hm, holdsEmpty_iff hm hl, apart_iff hl hm, Cleared, lt_prod_iff,
        lt_prod_iff]
      simp only [lt_char_iff, ← Char.toNat_inj]
      omega

end Label

/-- Keeping arrows as a set keeps their labels exclusive. -/
theorem Label.Exclusive.ofList {rs : List Arrow} (h : Exclusive (rs.map Arrow.label)) :
    Exclusive ((OrderedSet.ofList rs).toList.map Arrow.label) := by
  constructor
  · intro l hl
    obtain ⟨r, hr, rfl⟩ := List.mem_map.1 hl
    exact h.proper _ (List.mem_map_of_mem (OrderedSet.mem_ofList.1 hr))
  · have : Std.Symm fun r r' : Arrow => r.label.Apart r'.label := ⟨fun _ _ => Apart.symm⟩
    have ha := (List.pairwise_map.1 h.apart).forall
    refine List.pairwise_map.2 ((OrderedSet.nodup_toList _).imp_of_mem fun hr hr' hne => ?_)
    exact ha (OrderedSet.mem_ofList.1 hr) (OrderedSet.mem_ofList.1 hr') hne

namespace Automaton

variable {a : Automaton} {s : State}

/-! ## Labels with one destination -/

theorem groupByLabel_eq_map {rs : List Arrow} (h : rs.Pairwise fun r r' => r.label ≠ r'.label) :
    groupByLabel rs = rs.map fun r => (r.label, [r.dest]) := by
  induction rs with
  | nil => rfl
  | cons r rs ih =>
    have hr := List.pairwise_cons.1 h
    rw [groupByLabel, ih hr.2]
    cases rs with
    | nil => rfl
    | cons r' rs =>
      simp only [List.map_cons]
      rw [if_neg (hr.1 r' (by simp))]

theorem groupByLabel_eq_map_of_length_le {rs : List Arrow}
    (h : ∀ g ∈ groupByLabel rs, g.2.length ≤ 1) :
    groupByLabel rs = rs.map fun r => (r.label, [r.dest]) := by
  induction rs with
  | nil => rfl
  | cons r rs ih =>
    rw [groupByLabel] at h ⊢
    cases hg : groupByLabel rs with
    | nil =>
      rw [hg] at ih
      simp [← ih (by simp)]
    | cons g groups =>
      obtain ⟨l, dests⟩ := g
      have hne : dests ≠ [] := ne_nil_of_mem_groupByLabel (hg ▸ List.mem_cons_self)
      simp only [hg] at h ⊢
      by_cases e : r.label = l
      · rw [if_pos e] at h
        have := h _ List.mem_cons_self
        have := List.length_pos_iff.2 hne
        simp only [List.length_cons] at *
        omega
      · rw [if_neg e] at h ⊢
        rw [hg] at ih
        rw [List.map_cons, ← ih fun g hg => h g (List.mem_cons_of_mem _ hg)]

/-- Groups come in the order of their labels. -/
theorem pairwise_groupByLabel {rs : List Arrow} (h : rs.Pairwise lt) :
    (groupByLabel rs).Pairwise fun g h => lt g.1 h.1 := by
  induction rs with
  | nil => exact .nil
  | cons a rest ih =>
    obtain ⟨ha, hrest⟩ := List.pairwise_cons.1 h
    have ih := ih hrest
    rw [groupByLabel]
    split
    · exact List.pairwise_singleton _ _
    · next l dests groups hg =>
      rw [hg] at ih
      have hbehind := (List.pairwise_cons.1 ih).1
      split
      · exact ih.of_cons.cons hbehind
      · next hne =>
        -- The first group holds an arrow of `rest`, and `a` is less than that.
        have hfirst : (l, dests) ∈ groupByLabel rest := hg ▸ List.mem_cons_self
        obtain ⟨t, ht⟩ := List.exists_mem_of_ne_nil _ (ne_nil_of_mem_groupByLabel hfirst)
        have hal : lt a.label l := by
          rcases lt_prod_iff.1 (ha _ (mem_groupByLabel.1 ⟨dests, hfirst, ht⟩)) with h | ⟨e, -⟩
          · exact h
          · exact absurd e hne
        refine ih.cons fun g hg' => ?_
        rcases List.mem_cons.1 hg' with rfl | hg'
        · exact hal
        · exact StrictTotal.trans hal (hbehind g hg')

/-- Each label out of a state has one destination exactly when no two arrows share a label. -/
theorem forall_length_next_le_iff :
    (∀ g ∈ a.next s, g.2.length ≤ 1) ↔
      (a.arrows s).Pairwise fun r r' => r.label ≠ r'.label := by
  constructor
  · intro h
    have hgroups := pairwise_groupByLabel (pairwise_arrows a s)
    rw [groupByLabel_eq_map_of_length_le h, List.pairwise_map] at hgroups
    exact hgroups.imp StrictTotal.ne_of_lt
  · intro h
    unfold next
    rw [groupByLabel_eq_map h]
    simp

theorem forall_next_iff :
    (∀ g ∈ a.next s, (!g.1.isEpsilon && decide (g.2.length ≤ 1)) = true) ↔
      (∀ r ∈ a.arrows s, r.label ≠ .epsilon) ∧
        (a.arrows s).Pairwise fun r r' => r.label ≠ r'.label := by
  have hlabel : ∀ g : Label × List State, (!g.1.isEpsilon && decide (g.2.length ≤ 1)) = true ↔
      g.1 ≠ .epsilon ∧ g.2.length ≤ 1 := fun g => by
    rw [Bool.and_eq_true, decide_eq_true_eq, Bool.not_eq_true', ← Bool.not_eq_true, Label.isEpsilon_iff]
  simp only [hlabel]
  rw [forall₂_and, forall_length_next_le_iff]
  refine and_congr_left fun hn => ?_
  rw [next, groupByLabel_eq_map hn]
  simp

/-- What the test asks of the arrows out of a state, two by two. -/
theorem isDeterministicAt_iff_pairwise :
    a.isDeterministicAt s = true ↔ (∀ r ∈ a.arrows s, r.label ≠ .epsilon) ∧
      ((a.arrows s).Pairwise fun r r' => r.label ≠ r'.label) ∧
      (a.arrows s).Pairwise fun r r' => Label.Apart r.label r'.label ∧
        ¬ Label.HoldsEmpty r.label r'.label ∧ ¬ Label.HoldsEmpty r'.label r.label := by
  unfold isDeterministicAt
  rw [Bool.and_eq_true, List.all_eq_true, forall_next_iff, endsBeforeNext_sort_iff, and_assoc]
  refine and_congr_right fun _ => and_congr_right fun hn => ?_
  rw [next, groupByLabel_eq_map hn, List.filterMap_map, List.pairwise_filterMap]
  exact List.Pairwise.iff fun r r' => Label.forall_cleared_iff

/-- What is no state has no arrows, and passes. -/
theorem isDeterministicAt_of_isDeterministic (hd : a.isDeterministic = true) (s : State) :
    a.isDeterministicAt s = true := by
  by_cases hs : s < a.size
  · exact List.all_eq_true.1 hd s (List.mem_range.2 hs)
  · rw [isDeterministicAt_iff_pairwise, arrows_of_le (Nat.le_of_not_lt hs)]
    exact ⟨by simp, .nil, .nil⟩

/-- On a deterministic automaton the labels out of a state differ in their bounds. -/
theorem pairwise_bounds?_ne (hd : a.isDeterministic = true) (s : State) :
    (a.arrows s).Pairwise fun r r' => ∀ b, r.label.bounds? = some b → r'.label.bounds? ≠ some b := by
  obtain ⟨-, hne, hapart⟩ :=
    isDeterministicAt_iff_pairwise.1 (isDeterministicAt_of_isDeterministic hd s)
  exact (hne.and hapart).imp fun ⟨hne, hapart, _⟩ _ hb => hapart.bounds?_ne hne hb

/-- Only members have arrows. -/
theorem forall_arrows_iff {P : State → Arrow → Prop} :
    (∀ s, ∀ r ∈ a.arrows s, P s r) ↔ ∀ s ∈ a.states, ∀ r ∈ a.arrows s, P s r :=
  ⟨fun h s _ => h s, fun h s r hr => h s (List.mem_range.2 (lt_size_of_mem_arrows hr)) r hr⟩

instance : Decidable a.Forward :=
  decidable_of_iff (∀ s ∈ a.states, ∀ r ∈ a.arrows s, ∀ b ∈ r.label.bounds?,
    b.1.toNat ≤ b.2.toNat) <| by
    rw [Forward, forall_arrows_iff]
    simp only [Option.mem_def, Prod.forall]

instance : Decidable a.WellFormed :=
  decidable_of_iff ((∀ s ∈ a.states, ∀ r ∈ a.arrows s, r.dest < a.size) ∧
    ∀ s ∈ a.initial, s < a.size) <| by
    rw [← forall_arrows_iff (P := fun _ r => r.dest < a.size)]
    exact ⟨fun h => ⟨h.1, h.2⟩, fun h => ⟨h.dest_lt, h.initial_lt⟩⟩

theorem Forward.proper (hf : a.Forward) {r : Arrow} (hr : r ∈ a.arrows s)
    (hne : r.label ≠ .epsilon) : r.label.Proper := by
  cases hb : r.label.bounds? with
  | none => exact absurd (Label.bounds?_eq_none_iff.1 hb) hne
  | some b => exact Label.proper_iff.2 ⟨b.1, b.2, hb, hf s r hr _ _ hb⟩

theorem Forward.not_holdsEmpty (hf : a.Forward) {r : Arrow} (hr : r ∈ a.arrows s) (l : Label) :
    ¬ Label.HoldsEmpty l r.label := by
  rintro ⟨lo, hi, lo', hi', -, hb, hlt, -⟩
  have hle := hf s r hr lo' hi' hb
  omega

/-- Whether the labels of the arrows out of a state are exclusive. -/
def ExclusiveAt (a : Automaton) (s : State) : Prop := Label.Exclusive ((a.arrows s).map Arrow.label)

/-- Whether the labels out of every state are exclusive. -/
def Exclusive (a : Automaton) : Prop := ∀ s, a.ExclusiveAt s

theorem exclusiveAt_of_le (h : a.size ≤ s) : a.ExclusiveAt s := by
  unfold ExclusiveAt
  rw [arrows_of_le h]
  exact ⟨by simp, .nil⟩

theorem isDeterministicAt_iff (hf : a.Forward) :
    a.isDeterministicAt s = true ↔ a.ExclusiveAt s := by
  rw [isDeterministicAt_iff_pairwise]
  constructor
  · rintro ⟨hne, -, hpairs⟩
    refine ⟨?_, List.pairwise_map.2 (hpairs.imp fun h => h.1)⟩
    simp only [List.mem_map]
    rintro _ ⟨r, hr, rfl⟩
    exact hf.proper hr (hne r hr)
  · intro h
    have hp : ∀ r ∈ a.arrows s, r.label.Proper := fun r hr =>
      h.proper _ (List.mem_map_of_mem hr)
    have hapart := List.pairwise_map.1 h.apart
    refine ⟨fun r hr e => ?_, hapart.imp_of_mem fun {r r'} hr _ hrr' e => ?_,
      hapart.imp_of_mem fun hr hr' hrr' => ⟨hrr', hf.not_holdsEmpty hr' _, hf.not_holdsEmpty hr _⟩⟩
    · obtain ⟨c, hc⟩ := hp r hr
      rw [e] at hc
      cases hc
    · rw [← e] at hrr'
      exact (hp r hr).not_apart hrr'

theorem isDeterministic_iff (hf : a.Forward) : a.isDeterministic = true ↔ a.Exclusive := by
  unfold isDeterministic states
  simp only [List.all_eq_true, List.mem_range, isDeterministicAt_iff hf]
  refine ⟨fun h s => ?_, fun h s _ => h s⟩
  by_cases hs : s < a.size
  · exact h s hs
  · exact exclusiveAt_of_le (Nat.le_of_not_lt hs)

theorem forward_of_exclusive (h : a.Exclusive) : a.Forward := by
  intro s r hr lo hi hb
  obtain ⟨lo', hi', hb', hle⟩ := Label.proper_iff.1 ((h s).proper _ (List.mem_map_of_mem hr))
  rw [hb] at hb'
  cases hb'
  exact hle

/-- Spans made from exclusive labels lie apart when they are sorted, whatever their targets are. -/
theorem ExclusiveAt.separate_sort {α : Type} [StrictTotal α] (h : a.ExclusiveAt s)
    {g : Arrow → Option (Span α)}
    (hg : ∀ r m, g r = some m → r.label.bounds? = some (m.lo, m.hi)) :
    Span.Separate (sort ((a.arrows s).filterMap g)) := by
  have hle : ∀ r ∈ a.arrows s, ∀ b, r.label.bounds? = some b → b.1.toNat ≤ b.2.toNat := by
    intro r hr b hb
    obtain ⟨lo, hi, hb', hle⟩ := Label.proper_iff.1 (h.proper _ (List.mem_map_of_mem hr))
    rw [hb] at hb'
    cases hb'
    exact hle
  refine Span.separate_sort (fun m hm => ?_) (List.pairwise_filterMap.2 ?_)
  · obtain ⟨r, hr, hm⟩ := List.mem_filterMap.1 hm
    exact hle r hr _ (hg r m hm)
  · refine (List.pairwise_map.1 h.apart).imp_of_mem ?_
    intro r r' hr hr' hrr' m hm m' hm'
    have hb := hg r m hm
    have hb' := hg r' m' hm'
    exact (Label.apart_iff_of_le hb hb' (hle r hr _ hb) (hle r' hr' _ hb')).1 hrr'

/-! ## Steps -/

theorem ExclusiveAt.apart_of_ne (h : a.ExclusiveAt s) {r r' : Arrow} (hr : r ∈ a.arrows s)
    (hr' : r' ∈ a.arrows s) (hne : r ≠ r') : r.label.Apart r'.label := by
  have : Std.Symm fun r r' : Arrow => r.label.Apart r'.label := ⟨fun _ _ => Label.Apart.symm⟩
  exact (List.pairwise_map.1 h.apart).forall hr hr' hne

/-- Of exclusive labels, at most one arrow admits a character. -/
theorem arrow_eq_of_admits (h : a.ExclusiveAt s) {r r' : Arrow} (hr : r ∈ a.arrows s)
    (hr' : r' ∈ a.arrows s) {c : Char} (hc : r.label.admits c = true)
    (hc' : r'.label.admits c = true) : r = r' := by
  by_contra hne
  rw [h.apart_of_ne hr hr' hne c hc] at hc'
  cases hc'

theorem mem_arrows_of_step {c : Char} {t : State} (h : a.step s c = some t) :
    ∃ l, (⟨l, t⟩ : Arrow) ∈ a.arrows s ∧ l.admits c = true := by
  unfold step at h
  obtain ⟨r, hr, rfl⟩ := Option.map_eq_some_iff.1 h
  have hc := List.find?_some hr
  exact ⟨r.label, List.mem_of_find?_eq_some hr, hc⟩

/-- When all arrows that admit a character lead to one state, the step leads there. -/
theorem step_eq_some_of_forall {r : Arrow} {c : Char} (hr : r ∈ a.arrows s)
    (hc : r.label.admits c = true)
    (hone : ∀ r' ∈ a.arrows s, r'.label.admits c = true → r'.dest = r.dest) :
    a.step s c = some r.dest := by
  unfold step
  cases hf : (a.arrows s).find? fun r => r.label.admits c with
  | none => exact absurd hc (List.find?_eq_none.1 hf r hr)
  | some r' =>
    have hc' := List.find?_some hf
    exact congrArg some (hone r' (List.mem_of_find?_eq_some hf) hc')

theorem step_eq_some_iff (h : a.ExclusiveAt s) {c : Char} {t : State} :
    a.step s c = some t ↔ ∃ l, (⟨l, t⟩ : Arrow) ∈ a.arrows s ∧ l.admits c = true := by
  refine ⟨mem_arrows_of_step, ?_⟩
  rintro ⟨l, hl, hc⟩
  exact step_eq_some_of_forall hl hc fun r' hr' hc' =>
    congrArg Arrow.dest (arrow_eq_of_admits h hr' hl hc' hc)

end Automaton

end PatternAutomata
