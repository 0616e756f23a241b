import PatternAutomata.Order.OrderedMap
import PatternAutomata.Proofs.Determinize
import PatternAutomata.Proofs.Guarded.Access

/-!
# The guarded sweep

The program of the sweep keeps no list of the labels that are open.  It collates into a map what begins
and what ends at each point, and passes the points in order with a counter for each open destination: how
many open labels lead there.  A counter that comes to zero is taken out, so one that is lowered stands
above zero, which the program relies on.

The counters tally a list of destinations.  Raising adds to the list and lowering erases from it
(`foldl_raise_tally`, `foldlM_lower_tally`), for labels of all kinds, so the program does not stop and
finds the spans of `Automaton.disjointMoves`:

    (∀ s ∈ set, s < a.size) →
      disjointMoves a set = .ok ((a.disjointMoves set).map (Span.map OrderedSet.toList))   (disjointMoves_eq)
-/

namespace PatternAutomata.Guarded

open StrictTotal

variable {ε : Type}

/-! ## The program -/

/-- What happens at a point. -/
structure Events where
  /-- The destinations of the labels that begin there. -/
  starts : List State := []
  /-- The destinations of the labels that have just ended. -/
  ends : List State := []

/-- A change of what happens at a point. -/
def amend (p : Char) (f : Events → Events) (points : OrderedMap Char Events) :
    OrderedMap Char Events := points.insert p (f ((points.get? p).getD {}))

/-- Enters a span at its first character, and at the one after its last if there is one. -/
def enter (points : OrderedMap Char Events) (s : Span State) : OrderedMap Char Events :=
  let points := amend s.lo (fun e => { e with starts := e.starts ++ [s.target] }) points
  match Scalar.next? s.hi with
  | some p => amend p (fun e => { e with ends := e.ends ++ [s.target] }) points
  | none => points

/-- What happens at all points of some spans. -/
def collate (spans : List (Span State)) : OrderedMap Char Events := spans.foldl enter .empty

/-- One more label to a destination is open. -/
def raise (opened : OrderedMap State Nat) (t : State) : OrderedMap State Nat :=
  opened.insert t ((opened.get? t).getD 0 + 1)

/-- A label to a destination is closed, if one is open. -/
def lower (opened : OrderedMap State Nat) (t : State) : Except (Stop ε) (OrderedMap State Nat) :=
  match opened.get? t with
  | none => .ok opened
  | some k => do
    demand (0 < k) .unreachable
    .ok (if k - 1 = 0 then opened.erase t else opened.insert t (k - 1))

/-- The span from one character to another, if both are there and any destination is open. -/
def emit (opened : OrderedMap State Nat) : Option Char → Option Char → List (Span (List State))
  | some lo, some hi => if opened.entries.isEmpty then [] else [⟨lo, hi, opened.keys⟩]
  | _, _ => []

/-- The sweep under way. -/
structure Sweeping where
  /-- How many open labels lead to each destination. -/
  opened : OrderedMap State Nat := .empty
  /-- The point that was passed last. -/
  last : Option Char := none
  moves : List (Span (List State)) := []

/-- Passes a point: what ends is closed before what begins is opened. -/
def Sweeping.pass (x : Sweeping) (e : Char × Events) : Except (Stop ε) Sweeping := do
  let moves := x.moves ++ emit x.opened x.last (Scalar.prev? e.1)
  let opened ← e.2.ends.foldlM lower x.opened
  .ok ⟨e.2.starts.foldl raise opened, some e.1, moves⟩

/-- The spans up to the last character. -/
def Sweeping.finish (x : Sweeping) : List (Span (List State)) :=
  x.moves ++ emit x.opened x.last (some Scalar.last)

/-- Passes all points. -/
def sweep (points : OrderedMap Char Events) : Except (Stop ε) (List (Span (List State))) := do
  let x ← points.entries.foldlM Sweeping.pass {}
  .ok x.finish

/-- The characters of each label out of a set, with the destination. -/
def spans (a : Automaton) (set : StateSet) : Except (Stop ε) (List (Span State)) := do
  let rows ← set.toList.mapM fun s => do
    let rs ← arrows a s
    .ok (rs.filterMap fun r => r.label.bounds?.map fun b => ⟨b.1, b.2, r.dest⟩)
  .ok rows.flatten

/-- Disjoint spans of characters, each with the destinations of all labels that admit it. -/
def disjointMoves (a : Automaton) (set : StateSet) :
    Except (Stop ε) (List (Span (List State))) := do
  let labels ← spans a set
  sweep (collate labels)

/-! ## What happens at the points -/

section Collate

variable {points : OrderedMap Char Events} {p q : Char}

theorem get?_amend (f : Events → Events) :
    (amend p f points).get? q =
      if q = p then some (f ((points.get? p).getD {})) else points.get? q := by
  rw [amend, OrderedMap.get?_insert]

/-- The events of some spans at a point. -/
def eventsAt (spans : List (Span State)) (p : Char) : Events :=
  ⟨Span.startingAt spans p, Span.endingBefore spans p⟩

theorem eventsAt_append (l m : List (Span State)) (p : Char) :
    eventsAt (l ++ m) p = ⟨(eventsAt l p).starts ++ (eventsAt m p).starts,
      (eventsAt l p).ends ++ (eventsAt m p).ends⟩ := by
  simp [eventsAt, Span.startingAt, Span.endingBefore]

theorem eventsAt_of_not_mem {spans : List (Span State)} (h : p ∉ Span.points spans) :
    eventsAt spans p = {} := by
  rw [Span.mem_points] at h
  have hstarts : Span.startingAt spans p = [] := by
    rw [Span.startingAt, List.map_eq_nil_iff, List.filter_eq_nil_iff]
    intro s hs he
    exact h ⟨s, hs, .inl (of_decide_eq_true he).symm⟩
  have hends : Span.endingBefore spans p = [] := by
    rw [Span.endingBefore, List.map_eq_nil_iff, List.filter_eq_nil_iff]
    intro s hs he
    exact h ⟨s, hs, .inr (of_decide_eq_true he)⟩
  rw [eventsAt, hstarts, hends]

/-- Entering a span adds its events at its points, and leaves the others alone. -/
theorem get?_enter (s : Span State) :
    (enter points s).get? p =
      if p ∈ Span.points [s] then
        some ⟨((points.get? p).getD {}).starts ++ (eventsAt [s] p).starts,
          ((points.get? p).getD {}).ends ++ (eventsAt [s] p).ends⟩
      else points.get? p := by
  have hstarts : (eventsAt [s] p).starts = if p = s.lo then [s.target] else [] := by
    simp only [eventsAt, Span.startingAt, List.filter_cons, decide_eq_true_eq, @eq_comm _ p]
    split <;> rfl
  have hends : (eventsAt [s] p).ends = if Scalar.next? s.hi = some p then [s.target] else [] := by
    simp only [eventsAt, Span.endingBefore, List.filter_cons, decide_eq_true_eq]
    split <;> rfl
  simp only [hstarts, hends, Span.mem_points, List.mem_singleton, exists_eq_left]
  unfold enter
  dsimp only
  cases Scalar.next? s.hi with
  | none =>
    rw [get?_amend]
    by_cases hp : p = s.lo <;> simp [hp]
  | some q =>
    simp only [get?_amend, Option.some.injEq, @eq_comm _ q p]
    by_cases hq : p = q
    · subst hq
      by_cases hp : p = s.lo <;> simp [hp]
    · rw [if_neg hq]
      by_cases hp : p = s.lo
      · subst hp
        simp [hq]
      · simp [hp, hq]

theorem get?_collate (spans : List (Span State)) (p : Char) :
    (collate spans).get? p = if p ∈ Span.points spans then some (eventsAt spans p) else none := by
  induction spans using List.reverseRecOn with
  | nil => rfl
  | append_singleton spans s ih =>
    have hmem : p ∈ Span.points (spans ++ [s]) ↔ p ∈ Span.points spans ∨ p ∈ Span.points [s] := by
      simp only [Span.mem_points, List.mem_append, or_and_right, exists_or]
    have hget : ((collate spans).get? p).getD {} = eventsAt spans p := by
      rw [ih]
      split
      · rfl
      · next h => exact (eventsAt_of_not_mem h).symm
    have hfold : collate (spans ++ [s]) = enter (collate spans) s := by
      simp [collate]
    rw [hfold, get?_enter, hget, ← eventsAt_append, ih]
    by_cases hs : p ∈ Span.points [s]
    · rw [if_pos hs, if_pos (hmem.2 (.inr hs))]
    · rw [if_neg hs, eventsAt_append, eventsAt_of_not_mem hs]
      simp [hmem, hs]

/-- The points in order, each with what happens there. -/
theorem entries_collate (spans : List (Span State)) :
    (collate spans).entries = (Span.points spans).toList.map fun p => (p, eventsAt spans p) := by
  refine OrderedMap.eq_of_mem_iff (collate spans).ascending
    (List.pairwise_map.2 (Span.points spans).ascending) fun ⟨p, e⟩ => ?_
  rw [← OrderedMap.get?_eq_some_iff, get?_collate, List.mem_map]
  constructor
  · intro h
    obtain ⟨hp, he⟩ := Option.ite_none_right_eq_some.1 h
    exact ⟨p, hp, by rw [← Option.some.inj he]⟩
  · rintro ⟨_, hp, ⟨⟩⟩
    exact if_pos hp

end Collate

/-! ## The counters -/

/-- The counters of a list of destinations. -/
def tally (l : List State) : OrderedMap State Nat := l.foldl raise .empty

theorem foldl_raise_tally (l m : List State) : m.foldl raise (tally l) = tally (l ++ m) :=
  List.foldl_append.symm

/-- The counter of a destination says how often it is on the list, and there is none for zero. -/
theorem get?_tally (l : List State) (t : State) :
    (tally l).get? t = if l.count t = 0 then none else some (l.count t) := by
  induction l using List.reverseRecOn with
  | nil => rfl
  | append_singleton l s ih =>
    have hfold : tally (l ++ [s]) = raise (tally l) s := (foldl_raise_tally l [s]).symm
    rw [hfold, raise, OrderedMap.get?_insert, List.count_append]
    by_cases hs : t = s
    · subst hs
      have hget : ((tally l).get? t).getD 0 = l.count t := by
        rw [ih]
        split
        · next h => exact h.symm
        · rfl
      simp [hget]
    · have hcount : [s].count t = 0 := List.count_eq_zero.2 (by simpa using hs)
      rw [if_neg hs, ih, hcount, Nat.add_zero]

/-- A counter that is lowered stands above zero. -/
theorem lower_tally (l : List State) (t : State) :
    lower (ε := ε) (tally l) t = .ok (tally (l.erase t)) := by
  unfold lower
  rw [get?_tally]
  by_cases ht : l.count t = 0
  · rw [if_pos ht, List.erase_of_not_mem (List.count_eq_zero.1 ht)]
  · rw [if_neg ht]
    dsimp only
    rw [demand_eq (Nat.pos_of_ne_zero ht), ok_bind]
    refine congrArg Except.ok (OrderedMap.ext fun u => ?_)
    rw [get?_tally]
    by_cases hu : u = t
    · subst hu
      rw [List.count_erase_self]
      split <;> simp
    · rw [List.count_erase_of_ne hu, ← get?_tally]
      split <;> simp [hu]

theorem foldlM_lower_tally (l ts : List State) :
    ts.foldlM lower (tally l) = (.ok (tally (ts.foldl List.erase l)) :
      Except (Stop ε) (OrderedMap State Nat)) := by
  induction ts generalizing l with
  | nil => rfl
  | cons t ts ih => rw [List.foldlM_cons, lower_tally, ok_bind, ih, List.foldl_cons]

theorem keys_tally (l : List State) : (tally l).keys = (OrderedSet.ofList l).toList := by
  refine OrderedSet.eq_of_mem_iff (List.pairwise_map.2 (tally l).ascending)
    (OrderedSet.ofList l).ascending fun t => ?_
  rw [OrderedMap.mem_keys, OrderedSet.mem_toList, OrderedSet.mem_ofList, ← List.count_pos_iff]
  simp only [← OrderedMap.get?_eq_some_iff, get?_tally, Option.ite_none_left_eq_some,
    Option.some.injEq, exists_and_left, exists_eq', and_true, Nat.pos_iff_ne_zero]

theorem emit_tally (l : List State) (lo hi : Char) :
    emit (tally l) (some lo) (some hi) = (Span.between l lo hi).map (Span.map OrderedSet.toList) := by
  have hempty : (tally l).keys = [] ↔ l = [] := by
    simp only [keys_tally, List.eq_nil_iff_forall_not_mem, OrderedSet.mem_toList, OrderedSet.mem_ofList]
  simp only [OrderedMap.keys, List.map_eq_nil_iff] at hempty
  simp only [emit, Span.between, List.isEmpty_iff, hempty, keys_tally]
  split <;> rfl

/-! ## The sweep -/

section Sweep

variable {spans : List (Span State)} {l : List State}

theorem pass_tally (last : Option Char) (moves : List (Span (List State))) (p : Char) :
    Sweeping.pass (ε := ε) ⟨tally l, last, moves⟩ (p, eventsAt spans p) =
      .ok ⟨tally (Span.pass spans l p), some p, moves ++ emit (tally l) last (Scalar.prev? p)⟩ := by
  unfold Sweeping.pass Span.pass
  dsimp only [eventsAt]
  rw [foldlM_lower_tally, ok_bind, foldl_raise_tally]

/-- The sweep from a point on, by induction on the points to pass: the counters tally what is open. -/
theorem foldlM_pass_tally (lo : Char) (moves : List (Span (List State))) (ps : List Char) :
    ((ps.map fun p => (p, eventsAt spans p)).foldlM Sweeping.pass ⟨tally l, some lo, moves⟩ >>=
        fun x => .ok x.finish) =
      (.ok (moves ++ (Span.sweepFrom spans l lo ps).map (Span.map OrderedSet.toList)) :
        Except (Stop ε) (List (Span (List State)))) := by
  induction ps generalizing l lo moves with
  | nil =>
    rw [Span.sweepFrom, ← emit_tally]
    rfl
  | cons p ps ih =>
    rw [List.map_cons, List.foldlM_cons, pass_tally, ok_bind, ih, Span.sweepFrom, List.map_append,
      ← List.append_assoc]
    congr 3
    cases Scalar.prev? p with
    | none => rfl
    | some hi => exact emit_tally l lo hi

theorem sweep_eq (spans : List (Span State)) :
    sweep (ε := ε) (collate spans) = .ok ((Span.sweep spans).map (Span.map OrderedSet.toList)) := by
  unfold sweep Span.sweep
  rw [entries_collate]
  cases (Span.points spans).toList with
  | nil => rfl
  | cons p ps =>
    have hfirst : Sweeping.pass (ε := ε) {} (p, eventsAt spans p) =
        .ok ⟨tally (Span.pass spans [] p), some p, []⟩ := pass_tally (l := []) none [] p
    rw [List.map_cons, List.foldlM_cons, hfirst, ok_bind]
    exact foldlM_pass_tally p [] ps

end Sweep

section Moves

variable {a : Automaton} {set : StateSet}

theorem spans_eq (hset : ∀ s ∈ set, s < a.size) : spans (ε := ε) a set = .ok (a.spans set) := by
  unfold spans
  rw [mapM_eq_ok fun s hs => by rw [arrows_eq (hset s hs), ok_bind], ok_bind]
  rfl

theorem disjointMoves_eq (hset : ∀ s ∈ set, s < a.size) :
    disjointMoves (ε := ε) a set =
      .ok ((a.disjointMoves set).map (Span.map OrderedSet.toList)) := by
  rw [disjointMoves, spans_eq hset, ok_bind]
  exact sweep_eq (a.spans set)

/-- The targets of a span are what is open at its first character. -/
theorem target_of_mem_disjointMoves {m : Span StateSet} (hm : m ∈ a.disjointMoves set) :
    Span.openAt (a.spans set) m.lo ≠ [] ∧
      m.target = OrderedSet.ofList (Span.openAt (a.spans set) m.lo) := by
  have hlo : m.covers m.lo = true :=
    Span.covers_iff.2 ⟨Nat.le_refl _, Span.separate_sweep.lo_le_hi m hm⟩
  exact Span.exists_mem_sweep.1 ⟨m, hm, hlo, rfl⟩

theorem exists_mem_of_mem_disjointMoves {m : Span StateSet} (hm : m ∈ a.disjointMoves set) :
    ∃ t, t ∈ m.target := by
  obtain ⟨hne, htarget⟩ := target_of_mem_disjointMoves hm
  obtain ⟨t, ht⟩ := List.exists_mem_of_ne_nil _ hne
  rw [htarget]
  exact ⟨t, OrderedSet.mem_ofList.2 ht⟩

/-- At a character that a span covers, its targets are those that the labels out of the set lead to. -/
theorem mem_target_disjointMoves (hf : a.Forward) {m : Span StateSet} (hm : m ∈ a.disjointMoves set)
    {c : Char} (hc : m.covers c = true) {t : State} : t ∈ m.target ↔ t ∈ a.move set c := by
  obtain ⟨-, htarget⟩ := Span.exists_mem_sweep.1 ⟨m, hm, hc, rfl⟩
  rw [htarget, OrderedSet.mem_ofList, Automaton.mem_openAt_spans hf]

theorem exists_covers_disjointMoves (hf : a.Forward) {c : Char} :
    (∃ m ∈ a.disjointMoves set, m.covers c = true) ↔ ∃ t, t ∈ a.move set c := by
  constructor
  · rintro ⟨m, hm, hc⟩
    obtain ⟨hne, -⟩ := Span.exists_mem_sweep.1 ⟨m, hm, hc, rfl⟩
    obtain ⟨t, ht⟩ := List.exists_mem_of_ne_nil _ hne
    exact ⟨t, (Automaton.mem_openAt_spans hf).1 ht⟩
  · rintro ⟨t, ht⟩
    have hne := List.ne_nil_of_mem ((Automaton.mem_openAt_spans hf).2 ht)
    obtain ⟨m, hm, hc, -⟩ := Span.exists_mem_sweep.2 ⟨hne, rfl⟩
    exact ⟨m, hm, hc⟩

/-- The sweep with counters does not stop, and cuts what the labels out of a set admit into spans that
hold a character, ascend and do not meet.  Every character that a label admits lies in one of them, no
other does, and its targets are the destinations of all labels that admit it, in order. -/
theorem disjointMoves_exact (hf : a.Forward) (hset : ∀ s ∈ set, s < a.size) :
    ∃ moves, disjointMoves (ε := ε) a set = .ok moves ∧
      (∀ m ∈ moves, m.lo.toNat ≤ m.hi.toNat) ∧
      moves.Pairwise (fun m n => m.hi.toNat < n.lo.toNat) ∧
      (∀ m ∈ moves, m.target ≠ [] ∧ m.target.Pairwise (· < ·)) ∧
      ∀ c, ((∃ m ∈ moves, m.covers c = true) ↔ ∃ s ∈ set, ∃ r ∈ a.arrows s, r.label.admits c = true) ∧
        ∀ m ∈ moves, m.covers c = true → ∀ t, t ∈ m.target ↔
          ∃ s ∈ set, ∃ r ∈ a.arrows s, r.label.admits c = true ∧ r.dest = t := by
  have hmove : ∀ c t, t ∈ a.move set c ↔
      ∃ s ∈ set, ∃ r ∈ a.arrows s, r.label.admits c = true ∧ r.dest = t := by
    intro c t
    simp [Automaton.move, and_assoc]
  have hseparate : Span.Separate (a.disjointMoves set) := Span.separate_sweep
  have hwritten := hseparate.map (Span.map OrderedSet.toList) (fun _ => rfl) fun _ => rfl
  refine ⟨_, disjointMoves_eq hset, hwritten.lo_le_hi, hwritten.pairwise,
    List.forall_mem_map.2 ?targets, fun c => ⟨?covered, List.forall_mem_map.2 ?exact⟩⟩
  case targets =>
    intro m hm
    obtain ⟨t, ht⟩ := exists_mem_of_mem_disjointMoves hm
    exact ⟨List.ne_nil_of_mem ht, m.target.ascending⟩
  case covered =>
    have hcovers : ∀ m : Span StateSet, (m.map OrderedSet.toList).covers c = m.covers c := fun _ => rfl
    simp only [List.mem_map, exists_exists_and_eq_and, hcovers, exists_covers_disjointMoves hf, hmove]
    constructor
    · rintro ⟨t, s, hs, r, hr, hc, -⟩
      exact ⟨s, hs, r, hr, hc⟩
    · rintro ⟨s, hs, r, hr, hc⟩
      exact ⟨r.dest, s, hs, r, hr, hc, rfl⟩
  case exact =>
    intro m hm hc t
    exact (mem_target_disjointMoves hf hm hc).trans (hmove c t)

/-- Labels that overlap, two of them to one state; one ends at the surrogates, where another one begins
that runs up to the last character. -/
def bordering : Automaton where
  nodes := #[
    { name := "S0", arrows := .ofList [⟨.symbol 'b', 2⟩, ⟨.range 'a' 'd', 2⟩, ⟨.range 'b' 'd', 3⟩] },
    { name := "S1", arrows := .ofList [⟨.epsilon, 0⟩, ⟨.range 'e' (Char.ofNat 0xD7FF), 3⟩,
      ⟨.range (Char.ofNat 0xE000) Scalar.last, 2⟩] },
    { name := "S2" },
    { name := "S3" }]

theorem disjointMoves_exact_bordering :
    (bordering.Forward ∧ ∀ s ∈ (OrderedSet.ofList [0, 1] : StateSet), s < bordering.size) ∧
    disjointMoves (ε := Empty) bordering (.ofList [0, 1]) = .ok [
      ⟨'a', 'a', [2]⟩, ⟨'b', 'b', [2, 3]⟩, ⟨'c', 'd', [2, 3]⟩, ⟨'e', Char.ofNat 0xD7FF, [3]⟩,
      ⟨Char.ofNat 0xE000, Scalar.last, [2]⟩] ∧
    ∀ t, t ∈ [2, 3] ↔ ∃ s ∈ (OrderedSet.ofList [0, 1] : StateSet), ∃ r ∈ bordering.arrows s,
      r.label.admits 'b' = true ∧ r.dest = t := by
  have hf : bordering.Forward := by decide
  have hset : ∀ s ∈ (OrderedSet.ofList [0, 1] : StateSet), s < bordering.size := by decide
  have hok : disjointMoves (ε := Empty) bordering (.ofList [0, 1]) = .ok [
      ⟨'a', 'a', [2]⟩, ⟨'b', 'b', [2, 3]⟩, ⟨'c', 'd', [2, 3]⟩, ⟨'e', Char.ofNat 0xD7FF, [3]⟩,
      ⟨Char.ofNat 0xE000, Scalar.last, [2]⟩] := by rfl
  obtain ⟨moves, hmoves, -, -, -, hexact⟩ := disjointMoves_exact (ε := Empty) hf hset
  cases hmoves.symm.trans hok
  exact ⟨⟨hf, hset⟩, hok, (hexact 'b').2 ⟨'b', 'b', [2, 3]⟩ (by simp) rfl⟩

end Moves

end PatternAutomata.Guarded
