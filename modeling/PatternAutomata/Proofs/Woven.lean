import PatternAutomata.Proofs.Construction
import PatternAutomata.Proofs.Determinism

/-!
# Parts in which every state counts

The operators join parts with one discipline: nothing enters at an entry and nothing leaves at an exit
but the empty moves of one operator.  So a part never has more than two arrows at a state, an arrow that
reads stands alone (`Sparse`), and each of its states lies on a way from the entry to the exit
(`Woven`).  Every operator makes such a part of such parts:

    concat       the exit of the one is joined to the entry of the other     (Woven.concat)
    alternate    a new entry leads to both entries, both exits to a new exit  (Woven.alternate)
    repeated     the exit leads back to the entry and on to a new exit        (Woven.repeated)
    skippable    a new entry leads to the entry and to the exit               (Woven.skippable)
-/

namespace PatternAutomata.Automaton

open Computability

/-! ## States that stay as they are -/

/-- Whether the states below a bound keep their arrows. -/
structure Agrees (n : Nat) (a a' : Automaton) : Prop where
  size : a.size ≤ a'.size
  arrows : ∀ s : Nat, s < n → ∀ r, r ∈ a'.arrows s ↔ r ∈ a.arrows s

variable {a a' a'' : Automaton} {n m : Nat}

theorem agrees_refl (n : Nat) (a : Automaton) : Agrees n a a :=
  ⟨Nat.le_refl _, fun _ _ _ => .rfl⟩

theorem Agrees.trans (h : Agrees n a a') (h' : Agrees m a' a'') (hn : n ≤ m) : Agrees n a a'' := by
  refine ⟨Nat.le_trans h.size h'.size, fun s hs r => ?_⟩
  rw [h'.arrows s (Nat.lt_of_lt_of_le hs hn), h.arrows s hs]

theorem Adds.agrees {links : List (State × State)} (h : Adds a a' links)
    (hl : ∀ s t : Nat, (s, t) ∈ links → n ≤ s) : Agrees n a a' := by
  refine ⟨h.size, fun s hs r => ?_⟩
  rw [h.arrows s r]
  refine or_iff_right ?_
  rintro ⟨t, ht, -⟩
  have := hl s t ht
  omega

/-! ## One arrow between two new states -/

theorem mem_arrows_pair {l : Label} {s : State} {r : Arrow} :
    r ∈ (a.addState.addState.connect a.size l (a.size + 1)).arrows s ↔
      (s = a.size ∧ r = ⟨l, a.size + 1⟩) ∨ r ∈ a.arrows s := by
  rw [mem_arrows_connect (new_lt_size a).1, arrows_addState, arrows_addState]

theorem part_pair (a : Automaton) {l : Label} (hl : l ≠ .epsilon) :
    Part (a.addState.addState.connect a.size l (a.size + 1)) {a.size, a.size + 1} a.size
      (a.size + 1) {w | ∃ c, w = [c] ∧ l.admits c = true} := by
  have hexit : ∀ r, r ∉ (a.addState.addState.connect a.size l (a.size + 1)).arrows (a.size + 1) := by
    intro r hr
    rcases mem_arrows_pair.1 hr with ⟨e, -⟩ | hr
    · exact absurd e (Nat.succ_ne_self _)
    · exact not_mem_arrows_of_le (Nat.le_succ _) r hr
  refine ⟨by simp, by simp, fun s hs => ?_, fun s hs r hr => ?_, hexit, fun w => ?_⟩
  · rw [size_connect]
    rcases hs with rfl | rfl
    · exact (new_lt_size a).1
    · exact (new_lt_size a).2
  · rcases hs with rfl | rfl
    · rcases mem_arrows_pair.1 hr with ⟨-, rfl⟩ | hr
      · exact .inr rfl
      · exact absurd hr (not_mem_arrows_of_le (Nat.le_refl _) r)
    · exact absurd hr (hexit r)
  · constructor
    · suffices ∀ x y : Nat, x = a.size → y = a.size + 1 →
          (a.addState.addState.connect a.size l (a.size + 1)).Path x w y →
            ∃ c, w = [c] ∧ l.admits c = true from this _ _ rfl rfl
      intro x y hx hy hp
      cases hp with
      | nil => omega
      | empty hm _ =>
        rcases mem_arrows_pair.1 hm with ⟨-, e⟩ | hm
        · cases e
          exact absurd rfl hl
        · exact absurd hm (not_mem_arrows_of_le (Nat.le_of_eq hx.symm) _)
      | read hr hc hp =>
        rcases mem_arrows_pair.1 hr with ⟨-, e⟩ | hr
        · cases e
          rcases (adds_refl _).path_cases hexit hp with ⟨rfl, -⟩ | ⟨u, hu, -⟩
          · exact ⟨_, rfl, hc⟩
          · cases hu
        · exact absurd hr (not_mem_arrows_of_le (Nat.le_of_eq hx.symm) _)
    · rintro ⟨c, rfl, hc⟩
      exact .read (mem_arrows_pair.2 (.inl ⟨rfl, rfl⟩)) hc (.nil _)

theorem agrees_pair (a : Automaton) (l : Label) :
    Agrees a.size a (a.addState.addState.connect a.size l (a.size + 1)) := by
  constructor
  · rw [size_connect]
    exact Nat.le_of_lt (new_lt_size a).1
  · intro s hs r
    rw [mem_arrows_pair]
    refine or_iff_right ?_
    rintro ⟨e, -⟩
    exact absurd e (Nat.ne_of_lt hs)

/-! ## Ways through an automaton -/

variable {links : List (State × State)} {s t u : State}

/-- Whether some text leads from one state to another. -/
def Leads (a : Automaton) (s t : State) : Prop := ∃ w, a.Path s w t

theorem leads_refl (a : Automaton) (s : State) : a.Leads s s := ⟨[], .nil s⟩

theorem Leads.trans (h : a.Leads s t) (h' : a.Leads t u) : a.Leads s u := by
  obtain ⟨v, hv⟩ := h
  obtain ⟨w, hw⟩ := h'
  exact ⟨v ++ w, hv.append hw⟩

theorem Adds.leads (ha : Adds a a' links) (h : a.Leads s t) : a'.Leads s t := by
  obtain ⟨w, hw⟩ := h
  exact ⟨w, ha.path hw⟩

theorem Adds.leads_link (ha : Adds a a' links) (h : (s, t) ∈ links) : a'.Leads s t :=
  ⟨[], ha.path_link h (.nil t)⟩

/-! ## Few arrows at a state -/

/-- Whether a state has two arrows at most, and an arrow that reads has no other beside it. -/
structure Sparse (a : Automaton) (s : State) : Prop where
  length_le : (a.arrows s).length ≤ 2
  alone : ∀ r ∈ a.arrows s, r.label ≠ .epsilon → a.arrows s = [r]

theorem sparse_of_arrows_eq_nil (h : a.arrows s = []) : a.Sparse s := by
  refine ⟨?_, fun r hr => ?_⟩
  · rw [h]
    exact Nat.zero_le 2
  · rw [h] at hr
    cases hr

/-- The arrows are in order, so their list is known from its members. -/
theorem arrows_eq_of_mem_iff (h : ∀ r, r ∈ a'.arrows s ↔ r ∈ a.arrows s) :
    a'.arrows s = a.arrows s :=
  OrderedSet.eq_of_mem_iff (pairwise_arrows a' s) (pairwise_arrows a s) h

theorem Sparse.congr (h : a.Sparse s) (he : a'.arrows s = a.arrows s) : a'.Sparse s := by
  obtain ⟨hlength, halone⟩ := h
  rw [← he] at hlength halone
  exact ⟨hlength, halone⟩

theorem Adds.arrows_eq (ha : Adds a a' links) (hs : ∀ t, (s, t) ∉ links) :
    a'.arrows s = a.arrows s := by
  refine arrows_eq_of_mem_iff fun r => ?_
  rw [ha.arrows]
  refine or_iff_right ?_
  rintro ⟨t, ht, -⟩
  exact hs t ht

/-- Two empty moves at most are added to a state without arrows. -/
theorem Adds.sparse_of_sink (ha : Adds a a' links) (hs : a.arrows s = [])
    (hl : ∀ v, (s, v) ∈ links → v = t ∨ v = u) : a'.Sparse s := by
  have hmem : ∀ r ∈ a'.arrows s, r = ⟨.epsilon, t⟩ ∨ r = ⟨.epsilon, u⟩ := by
    intro r hr
    rcases (ha.arrows s r).1 hr with ⟨v, hv, rfl⟩ | hr
    · rcases hl v hv with rfl | rfl
      · exact .inl rfl
      · exact .inr rfl
    · rw [hs] at hr
      cases hr
  have hnodup : (a'.arrows s).Nodup := (pairwise_arrows a' s).imp StrictTotal.ne_of_lt
  have hsub : a'.arrows s ⊆ [⟨.epsilon, t⟩, ⟨.epsilon, u⟩] := fun r hr => by simpa using hmem r hr
  refine ⟨(hnodup.subperm hsub).length_le, fun r hr hread => ?_⟩
  rcases hmem r hr with rfl | rfl
  · exact absurd rfl hread
  · exact absurd rfl hread

/-! ## Woven parts -/

/-- A part whose entry is not entered from inside, with few arrows at each state, and with each state
on a way from the entry to the exit. -/
structure Woven (a : Automaton) (R : Set State) (entry exit : State) (L : Language Char) : Prop
    extends Part a R entry exit L where
  entry_ne_exit : entry ≠ exit
  unentered : ∀ s ∈ R, ∀ r ∈ a.arrows s, r.dest ≠ entry
  sparse : ∀ s ∈ R, a.Sparse s
  reached : ∀ s ∈ R, a.Leads entry s
  left : ∀ s ∈ R, a.Leads s exit

namespace Woven

variable {R S : Set State} {i o i' o' : State} {L M : Language Char}

theorem arrows_exit (h : Woven a R i o L) : a.arrows o = [] := List.eq_nil_iff_forall_not_mem.2 h.sink

/-- A woven part depends on the arrows inside of it only. -/
theorem congr (h : Woven a R i o L) (ha : ∀ s ∈ R, ∀ r, r ∈ a'.arrows s ↔ r ∈ a.arrows s)
    (hsize : a.size ≤ a'.size) : Woven a' R i o L := by
  have hleads : ∀ s ∈ R, ∀ t, a.Leads s t → a'.Leads s t := by
    rintro s hs t ⟨w, hw⟩
    exact ⟨w, hw.of_agree h.closed (fun s hs r hr => (ha s hs r).2 hr) hs⟩
  exact {
    toPart := h.toPart.congr ha hsize
    entry_ne_exit := h.entry_ne_exit
    unentered := fun s hs r hr => h.unentered s hs r ((ha s hs r).1 hr)
    sparse := fun s hs => (h.sparse s hs).congr (arrows_eq_of_mem_iff (ha s hs))
    reached := fun s hs => hleads i h.entry_mem s (h.reached s hs)
    left := fun s hs => hleads s hs o (h.left s hs) }

theorem agrees (h : Woven a R i o L) (ha : Agrees n a a')
    (hR : ∀ s : Nat, s ∈ R → s < n) : Woven a' R i o L :=
  h.congr (fun s hs r => ha.arrows s (hR s hs) r) ha.size

/-- Empty moves may be added at the exit of a part, as many as two. -/
theorem sparse_of_adds (h : Woven a R i o L) (ha : Adds a a' links)
    (hlR : ∀ s v, (s, v) ∈ links → s ∈ R → s = o ∧ (v = t ∨ v = u)) : ∀ s ∈ R, a'.Sparse s := by
  intro s hs
  by_cases e : s = o
  · subst e
    exact ha.sparse_of_sink h.arrows_exit fun v hv => (hlR s v hv hs).2
  · exact (h.sparse s hs).congr (ha.arrows_eq fun v hv => e (hlR s v hv hs).1)

theorem concat (h : Woven a R i o L) (h' : Woven a S i' o' M) (hd : Disjoint R S)
    (ha : Adds a a' [(o, i')]) : Woven a' (R ∪ S) i o' (L * M) := by
  have ho : o ∉ S := Set.disjoint_left.1 hd h.exit_mem
  have hi : i ∉ S := Set.disjoint_left.1 hd h.entry_mem
  have hjoin : a'.Leads o i' := ha.leads_link List.mem_cons_self
  have hthrough : a'.Leads i i' := (ha.leads (h.reached o h.exit_mem)).trans hjoin
  have hbehind : a'.Leads o o' := hjoin.trans (ha.leads (h'.reached o' h'.exit_mem))
  refine ⟨h.toPart.concat h'.toPart hd ha, ?ne, ?unentered, ?sparse, ?reached, ?left⟩
  case ne =>
    rintro rfl
    exact hi h'.exit_mem
  case unentered =>
    intro s hs r hr
    rcases (ha.arrows s r).1 hr with ⟨t, ht, rfl⟩ | hr
    · cases List.mem_singleton.1 ht
      rintro rfl
      exact hi h'.entry_mem
    · rcases hs with hs | hs
      · exact h.unentered s hs r hr
      · rintro rfl
        exact hi (h'.closed s hs r hr)
  case sparse =>
    rintro s (hs | hs)
    · refine h.sparse_of_adds ha (t := i') (u := i') (fun s v hv _ => ?_) s hs
      cases List.mem_singleton.1 hv
      exact ⟨rfl, .inl rfl⟩
    · refine (h'.sparse s hs).congr (ha.arrows_eq fun v hv => ?_)
      cases List.mem_singleton.1 hv
      exact ho hs
  case reached =>
    rintro s (hs | hs)
    · exact ha.leads (h.reached s hs)
    · exact hthrough.trans (ha.leads (h'.reached s hs))
  case left =>
    rintro s (hs | hs)
    · exact (ha.leads (h.left s hs)).trans hbehind
    · exact ha.leads (h'.left s hs)

/-- Between a new entry and a new exit, with a way in and a way out for each state that was there. -/
theorem between {x y : State} (hp : Part a' (R ∪ {x, y}) x y M) (hx : a.size ≤ x) (hy : a.size ≤ y)
    (hxy : x ≠ y) (ha : Adds a a' links) (hdest : ∀ s ∈ R, ∀ r ∈ a.arrows s, r.dest < a.size)
    (hl : ∀ s v, (s, v) ∈ links → s ≠ y ∧ v ≠ x ∧ (s = x → v = t ∨ v = u))
    (hsparse : ∀ s ∈ R, a'.Sparse s) (hin : ∀ s ∈ R, a'.Leads x s) (hout : ∀ s ∈ R, a'.Leads s y)
    (hne : R.Nonempty) : Woven a' (R ∪ {x, y}) x y M := by
  have hacross : a'.Leads x y := by
    obtain ⟨s, hs⟩ := hne
    exact (hin s hs).trans (hout s hs)
  refine ⟨hp, hxy, ?unentered, ?sparse, ?reached, ?left⟩
  case unentered =>
    intro s hs r hr
    rcases (ha.arrows s r).1 hr with ⟨v, hv, rfl⟩ | hr
    · exact (hl s v hv).2.1
    · rcases hs with hs | rfl | rfl
      · exact Nat.ne_of_lt (Nat.lt_of_lt_of_le (hdest s hs r hr) hx)
      · exact absurd hr (not_mem_arrows_of_le hx r)
      · exact absurd hr (not_mem_arrows_of_le hy r)
  case sparse =>
    rintro s (hs | e | e)
    · exact hsparse s hs
    · exact ha.sparse_of_sink (arrows_of_le (e ▸ hx)) fun v hv => (hl s v hv).2.2 e
    · exact ha.sparse_of_sink (arrows_of_le (e ▸ hy)) (t := s) (u := s) fun v hv =>
        absurd e (hl s v hv).1
  case reached =>
    rintro s (hs | rfl | rfl)
    · exact hin s hs
    · exact leads_refl a' _
    · exact hacross
  case left =>
    rintro s (hs | rfl | rfl)
    · exact hout s hs
    · exact hacross
    · exact leads_refl a' _

theorem dest_lt_size (h : Woven a R i o L) : ∀ s ∈ R, ∀ r ∈ a.arrows s, r.dest < a.size :=
  fun s hs r hr => h.lt_size _ (h.closed s hs r hr)

theorem alternate (h : Woven a R i o L) (h' : Woven a S i' o' M) (hd : Disjoint R S) {x y : State}
    (hx : a.size ≤ x) (hy : a.size ≤ y) (hxy : x ≠ y)
    (ha : Adds a a' [(o', y), (o, y), (x, i'), (x, i)]) (hxs : x < a'.size) (hys : y < a'.size) :
    Woven a' (R ∪ S ∪ {x, y}) x y (L + M) := by
  have hR : ∀ z ∈ R, z ≠ x ∧ z ≠ y := fun z hz => h.ne_new hz hx hy
  have hS : ∀ z ∈ S, z ≠ x ∧ z ≠ y := fun z hz => h'.ne_new hz hx hy
  have hin : ∀ j, j = i ∨ j = i' → a'.Leads x j := by
    rintro j (rfl | rfl) <;> exact ha.leads_link (by simp)
  have hout : ∀ p, p = o ∨ p = o' → a'.Leads p y := by
    rintro p (rfl | rfl) <;> exact ha.leads_link (by simp)
  refine between (t := i) (u := i') (h.toPart.alternate h'.toPart hd hx hy hxy ha hxs hys) hx hy hxy ha
    ?dest ?links ?sparse ?reached ?left ⟨i, .inl h.entry_mem⟩
  case dest =>
    rintro s (hs | hs)
    · exact h.dest_lt_size s hs
    · exact h'.dest_lt_size s hs
  case links =>
    intro s v hv
    rcases mem_alternate_links.1 hv with ⟨rfl, rfl⟩ | ⟨rfl, rfl⟩ | ⟨rfl, rfl⟩ | ⟨rfl, rfl⟩
    · exact ⟨(hS _ h'.exit_mem).2, hxy.symm, fun e => absurd e (hS _ h'.exit_mem).1⟩
    · exact ⟨(hR _ h.exit_mem).2, hxy.symm, fun e => absurd e (hR _ h.exit_mem).1⟩
    · exact ⟨hxy, (hS _ h'.entry_mem).1, fun _ => .inr rfl⟩
    · exact ⟨hxy, (hR _ h.entry_mem).1, fun _ => .inl rfl⟩
  case sparse =>
    rintro s (hs | hs)
    · refine h.sparse_of_adds ha (t := y) (u := y) (fun s v hv hs => ?_) s hs
      obtain ⟨e, e'⟩ := (h.eq_of_alternate_link h'.toPart hd hx hv).1 hs
      exact ⟨e, .inl e'⟩
    · refine h'.sparse_of_adds ha (t := y) (u := y) (fun s v hv hs => ?_) s hs
      obtain ⟨e, e'⟩ := (h.eq_of_alternate_link h'.toPart hd hx hv).2 hs
      exact ⟨e, .inl e'⟩
  case reached =>
    rintro s (hs | hs)
    · exact (hin i (.inl rfl)).trans (ha.leads (h.reached s hs))
    · exact (hin i' (.inr rfl)).trans (ha.leads (h'.reached s hs))
  case left =>
    rintro s (hs | hs)
    · exact (ha.leads (h.left s hs)).trans (hout o (.inl rfl))
    · exact (ha.leads (h'.left s hs)).trans (hout o' (.inr rfl))

theorem repeated (h : Woven a R i o L) {x y : State} (hx : a.size ≤ x) (hy : a.size ≤ y)
    (hxy : x ≠ y) {skip : Bool}
    (hlinks : ∀ s t, (s, t) ∈ links ↔
      (s = o ∧ t = i) ∨ (s = o ∧ t = y) ∨ (s = x ∧ t = i) ∨ (skip = true ∧ s = x ∧ t = y))
    (ha : Adds a a' links) (hxs : x < a'.size) (hys : y < a'.size) :
    Woven a' (R ∪ {x, y}) x y (if skip then L∗ else L * L∗) := by
  have hR : ∀ z ∈ R, z ≠ x ∧ z ≠ y := fun z hz => h.ne_new hz hx hy
  have hin : a'.Leads x i := ha.leads_link ((hlinks x i).2 (.inr (.inr (.inl ⟨rfl, rfl⟩))))
  have hout : a'.Leads o y := ha.leads_link ((hlinks o y).2 (.inr (.inl ⟨rfl, rfl⟩)))
  refine between (t := i) (u := y) (h.toPart.repeated hx hy hxy hlinks ha hxs hys) hx hy hxy ha
    h.dest_lt_size ?links ?sparse ?reached ?left ⟨i, h.entry_mem⟩
  case links =>
    intro s v hv
    rcases (hlinks s v).1 hv with ⟨rfl, rfl⟩ | ⟨rfl, rfl⟩ | ⟨rfl, rfl⟩ | ⟨-, rfl, rfl⟩
    · exact ⟨(hR _ h.exit_mem).2, (hR _ h.entry_mem).1, fun _ => .inl rfl⟩
    · exact ⟨(hR _ h.exit_mem).2, hxy.symm, fun _ => .inr rfl⟩
    · exact ⟨hxy, (hR _ h.entry_mem).1, fun _ => .inl rfl⟩
    · exact ⟨hxy, hxy.symm, fun _ => .inr rfl⟩
  case sparse =>
    exact h.sparse_of_adds ha fun s v hv hs => h.eq_of_repeated_link hx ((hlinks s v).1 hv) hs
  case reached =>
    intro s hs
    exact hin.trans (ha.leads (h.reached s hs))
  case left =>
    intro s hs
    exact (ha.leads (h.left s hs)).trans hout

theorem skippable (h : Woven a R i o L) {x : State} (hx : a.size ≤ x)
    (ha : Adds a a' [(x, o), (x, i)]) (hxs : x < a'.size) : Woven a' (R ∪ {x}) x o (1 + L) := by
  have hR : ∀ z ∈ R, z ≠ x := fun z hz => (h.ne_new hz hx hx).1
  have hin : a'.Leads x i := ha.leads_link (by simp)
  have hover : a'.Leads x o := ha.leads_link (by simp)
  refine ⟨h.toPart.skippable hx ha hxs, (hR o h.exit_mem).symm, ?unentered, ?sparse, ?reached, ?left⟩
  case unentered =>
    intro s hs r hr
    rcases (ha.arrows s r).1 hr with ⟨v, hv, rfl⟩ | hr
    · rcases (eq_of_skippable_link hv).2 with rfl | rfl
      · exact hR v h.exit_mem
      · exact hR v h.entry_mem
    · rcases hs with hs | rfl
      · exact hR _ (h.closed s hs r hr)
      · exact absurd hr (not_mem_arrows_of_le hx r)
  case sparse =>
    rintro s (hs | e)
    · exact (h.sparse s hs).congr (ha.arrows_eq fun v hv => hR s hs (eq_of_skippable_link hv).1)
    · exact ha.sparse_of_sink (arrows_of_le (e ▸ hx)) fun v hv => (eq_of_skippable_link hv).2
  case reached =>
    rintro s (hs | rfl)
    · exact hin.trans (ha.leads (h.reached s hs))
    · exact leads_refl a' _
  case left =>
    rintro s (hs | rfl)
    · exact ha.leads (h.left s hs)
    · exact hover

end Woven

/-- One arrow between two new states, for a label that reads something. -/
theorem woven_pair (a : Automaton) {l : Label} (hl : l.Proper) :
    Woven (a.addState.addState.connect a.size l (a.size + 1)) {a.size, a.size + 1} a.size
      (a.size + 1) {w | ∃ c, w = [c] ∧ l.admits c = true} := by
  obtain ⟨c, hc⟩ := hl
  have hread : l ≠ .epsilon := by
    rintro rfl
    cases hc
  have hpart := part_pair a hread
  have hentry : (a.addState.addState.connect a.size l (a.size + 1)).arrows a.size =
      [⟨l, a.size + 1⟩] := by
    refine OrderedSet.eq_of_mem_iff (pairwise_arrows _ _) (List.pairwise_singleton _ _) fun r => ?_
    rw [mem_arrows_pair, List.mem_singleton, arrows_of_le (Nat.le_refl _)]
    simp
  have hexit := List.eq_nil_iff_forall_not_mem.2 hpart.sink
  have hacross : (a.addState.addState.connect a.size l (a.size + 1)).Leads a.size (a.size + 1) :=
    ⟨[c], .read (mem_arrows_pair.2 (.inl ⟨rfl, rfl⟩)) hc (.nil _)⟩
  refine ⟨hpart, Nat.ne_of_lt (Nat.lt_succ_self _), ?unentered, ?sparse, ?reached, ?left⟩
  case unentered =>
    rintro s (rfl | rfl) r hr
    · rw [hentry, List.mem_singleton] at hr
      subst hr
      exact Nat.succ_ne_self _
    · exact absurd hr (hpart.sink r)
  case sparse =>
    rintro s (rfl | rfl)
    · refine ⟨?_, fun r hr _ => ?_⟩
      · rw [hentry]
        exact Nat.le_succ 1
      · rw [hentry, List.mem_singleton] at hr
        rw [hentry, hr]
    · exact sparse_of_arrows_eq_nil hexit
  case reached =>
    rintro s (rfl | rfl)
    · exact leads_refl _ _
    · exact hacross
  case left =>
    rintro s (rfl | rfl)
    · exact hacross
    · exact leads_refl _ _

end PatternAutomata.Automaton
