import PatternAutomata.Pattern.Postorder
import PatternAutomata.Proofs.Guarded.Access
import PatternAutomata.Proofs.Lexeme

/-!
# Guarded readers

A reader goes from place to place of a text and looks up to two places ahead.  The guarded one asks for
each character by its place, and for the body of a class by where it starts and where it ends.  At a
place it does what is done with the rest of the text:

    scanFrom true text i = returned (scan (text.drop i))                                (scanFrom_eq)
    itemsFrom body i = returned (Pattern.itemsFrom body (body.drop i))                 (itemsFrom_eq)
    expandFrom text i = returned (expand (text.drop i))                               (expandFrom_eq)
-/

namespace PatternAutomata.Guarded

open Token Pattern

variable {ε α : Type}

/-! ## The rest of an array -/

/-- The part of an array from one place up to another. -/
def slice (xs : Array α) (start stop : Nat) : Except (Stop ε) (Array α) := do
  demand (start ≤ stop) (.outOfBounds start stop)
  demand (stop ≤ xs.size) (.outOfBounds stop xs.size)
  .ok (xs.extract start stop)

section Rest

variable {xs : Array α} {i : Nat} {rest : List α}

theorem not_lt_size (h : xs.toList.drop i = []) : ¬i < xs.size := by
  rw [List.drop_eq_nil_iff, Array.length_toList] at h
  exact Nat.not_lt.2 h

theorem getElem?_rest (h : xs.toList.drop i = rest) (k : Nat) : xs[i + k]? = rest[k]? := by
  rw [← h, List.getElem?_drop, Array.getElem?_toList]

theorem drop_rest (h : xs.toList.drop i = rest) (k : Nat) : xs.toList.drop (i + k) = rest.drop k := by
  rw [← h, List.drop_drop]

theorem fetch_rest {x : α} (h : xs.toList.drop i = rest) {k : Nat} (hx : rest[k]? = some x) :
    fetch (ε := ε) xs (i + k) = .ok x :=
  fetch_eq ((getElem?_rest h k).trans hx)

theorem fetch_head {x : α} (h : xs.toList.drop i = x :: rest) : fetch (ε := ε) xs i = .ok x :=
  fetch_rest h (k := 0) rfl

theorem size_eq (h : xs.toList.drop i = rest) (hi : i ≤ xs.size) : xs.size = i + rest.length := by
  rw [← h, List.length_drop, Array.length_toList]
  omega

theorem lt_size {x : α} (h : xs.toList.drop i = x :: rest) : i < xs.size := by
  have hx : xs[i]? = some x := getElem?_rest h 0
  exact (Array.getElem?_eq_some_iff.1 hx).1

theorem slice_rest {u v : List α} (h : xs.toList.drop i = u ++ v) (hi : i ≤ xs.size) :
    slice (ε := ε) xs i (i + u.length) = .ok u.toArray := by
  have hsize := size_eq h hi
  rw [List.length_append] at hsize
  have hlist : (xs.extract i (i + u.length)).toList = u := by
    rw [Array.toList_extract, List.extract_eq_take_drop, h, Nat.add_sub_cancel_left, List.take_left]
  rw [slice, demand_eq (Nat.le_add_right _ _), ok_bind, demand_eq (by omega), ok_bind]
  exact congrArg Except.ok (Array.toList_inj.1 hlist)

theorem slice_size (h : xs.toList.drop i = rest) (hi : i ≤ xs.size) :
    slice (ε := ε) xs i xs.size = .ok rest.toArray := by
  have hall := slice_rest (ε := ε) (v := []) (by rw [h, List.append_nil]) hi
  rwa [← size_eq h hi] at hall

end Rest

/-! ## Tokens -/

/-- The end of the range that a character at some place begins, if `ranges` are read and it does. -/
def rangeEnd (ranges : Bool) (text : Array Char) (i : Nat) (c : Char) :
    Except (Stop ε) (Option Char) :=
  if ranges = true ∧ isSymbol c = true ∧ i + 2 < text.size then do
    let dash ← fetch text (i + 1)
    let hi ← fetch text (i + 2)
    .ok (if decide (dash = '-') && isSymbol hi then some hi else none)
  else .ok none

/-- The tokens of a text from some place on. -/
def scanFrom (ranges : Bool) (text : Array Char) (i : Nat) :
    Except (Stop PatternError) (List Token) :=
  if i < text.size then do
    let c ← fetch text i
    match ← rangeEnd ranges text i c with
    | some hi => do
      returned (checkRange c hi)
      let tokens ← scanFrom ranges text (i + 3)
      .ok (range c hi :: tokens)
    | none => do
      let token ← returned (ofChar c)
      let tokens ← scanFrom ranges text (i + 1)
      .ok (token :: tokens)
  else .ok []
termination_by text.size - i

variable {text : Array Char} {i : Nat} {c : Char} {p : List Char}

theorem rangeEnd_eq (h : text.toList.drop i = c :: p) :
    rangeEnd (ε := ε) true text i c = .ok (match p with
      | dash :: hi :: _ => if isSymbol c && decide (dash = '-') && isSymbol hi then some hi else none
      | _ => none) := by
  have hsize := size_eq h (Nat.le_of_lt (lt_size h))
  unfold rangeEnd
  match p with
  | [] => rw [if_neg (by simp [hsize])]
  | [d] => rw [if_neg (by simp [hsize])]
  | d :: e :: p =>
    rw [fetch_rest h (k := 1) rfl, fetch_rest h (k := 2) rfl]
    cases isSymbol c <;> simp [hsize]

/-- One step, at a place where there is a character. -/
theorem scanFrom_cons (ranges : Bool) (h : text.toList.drop i = c :: p) :
    scanFrom ranges text i = (do
      match ← rangeEnd ranges text i c with
      | some hi => do
        returned (checkRange c hi)
        let tokens ← scanFrom ranges text (i + 3)
        .ok (range c hi :: tokens)
      | none => do
        let token ← returned (ofChar c)
        let tokens ← scanFrom ranges text (i + 1)
        .ok (token :: tokens)) := by
  rw [scanFrom, if_pos (lt_size h), fetch_head h, ok_bind]

theorem scanFrom_nil (ranges : Bool) (h : text.toList.drop i = []) :
    scanFrom ranges text i = .ok [] := by
  rw [scanFrom, if_neg (not_lt_size h)]

theorem scanFrom_eq (text : Array Char) (i : Nat) :
    scanFrom true text i = returned (scan (text.toList.drop i)) := by
  generalize h : text.toList.drop i = v
  fun_induction scan v generalizing i with
  | case1 => exact scanFrom_nil true h
  | case2 c dash hi rest hcond ih =>
    rw [scanFrom_cons true h, rangeEnd_eq h, ok_bind]
    dsimp only
    rw [if_pos hcond]
    refine returned_bind fun _ _ => ?_
    rw [ih (i + 3) (drop_rest h 3)]
    exact returned_bind fun _ _ => rfl
  | case3 c dash hi rest hcond ih =>
    rw [scanFrom_cons true h, rangeEnd_eq h, ok_bind]
    dsimp only
    rw [if_neg hcond]
    refine returned_bind fun t _ => ?_
    rw [ih (i + 1) (drop_rest h 1)]
    exact returned_bind fun _ _ => rfl
  | case4 c rest hrest ih =>
    have hend : rangeEnd (ε := PatternError) true text i c = .ok none := by
      rw [rangeEnd_eq h]
      split
      · exact (hrest _ _ _ rfl).elim
      · rfl
    rw [scanFrom_cons true h, hend, ok_bind]
    refine returned_bind fun t _ => ?_
    rw [ih (i + 1) (drop_rest h 1)]
    exact returned_bind fun _ _ => rfl

theorem scanFrom_singly (text : Array Char) (i : Nat) :
    scanFrom false text i = returned (scanSingly (text.toList.drop i)) := by
  unfold scanSingly
  generalize h : text.toList.drop i = v
  induction v generalizing i with
  | nil => exact scanFrom_nil false h
  | cons c v ih =>
    rw [scanFrom_cons false h, List.mapM_cons]
    refine returned_bind fun t _ => ?_
    rw [ih (i + 1) (drop_rest h 1)]
    exact returned_bind fun _ _ => rfl

/-! ## Classes -/

/-- The items of a class from some place on. -/
def itemsFrom (body : Array Char) (i : Nat) : Except (Stop PatternError) (List Token) :=
  if i < body.size then do
    let c ← fetch body i
    if !isSymbol c then .error (.failure (.invalidClass body.toList))
    else if body[i + 1]? = some '-' then
      match body[i + 2]? with
      | some hi =>
        if isSymbol hi then do
          returned (checkRange c hi)
          let items ← itemsFrom body (i + 3)
          .ok (range c hi :: items)
        else .error (.failure (.invalidClass body.toList))
      | none => .error (.failure (.invalidClass body.toList))
    else do
      let items ← itemsFrom body (i + 1)
      .ok (symbol c :: items)
  else .ok []
termination_by body.size - i

/-- The items of a class: symbols and ranges, and at least one. -/
def classItems (body : Array Char) : Except (Stop PatternError) (List Token) := do
  let items ← itemsFrom body 0
  if items.isEmpty then .error (.failure (.invalidClass body.toList)) else .ok items

/-- One step, at a place where there is a character. -/
theorem itemsFrom_cons (h : text.toList.drop i = c :: p) :
    itemsFrom text i = (
      if !isSymbol c then .error (.failure (.invalidClass text.toList))
      else if p[0]? = some '-' then
        match p[1]? with
        | some hi =>
          if isSymbol hi then do
            returned (checkRange c hi)
            let items ← itemsFrom text (i + 3)
            .ok (range c hi :: items)
          else .error (.failure (.invalidClass text.toList))
        | none => .error (.failure (.invalidClass text.toList))
      else do
        let items ← itemsFrom text (i + 1)
        .ok (symbol c :: items)) := by
  rw [itemsFrom, if_pos (lt_size h), fetch_head h, ok_bind, getElem?_rest h 1, getElem?_rest h 2]
  rfl

theorem itemsFrom_eq (text : Array Char) (i : Nat) :
    itemsFrom text i = returned (Pattern.itemsFrom text.toList (text.toList.drop i)) := by
  generalize h : text.toList.drop i = v
  fun_induction Pattern.itemsFrom text.toList v generalizing i with
  | case1 =>
    rw [itemsFrom, if_neg (not_lt_size h)]
    rfl
  | case2 c dash hi rest hc =>
    rw [itemsFrom_cons h, if_pos hc]
    rfl
  | case3 c hi rest hc hhi ih =>
    rw [itemsFrom_cons h, if_neg hc]
    dsimp only [List.getElem?_cons_zero, List.getElem?_cons_succ]
    rw [if_pos rfl, if_pos hhi]
    refine returned_bind fun _ _ => ?_
    rw [ih (i + 3) (drop_rest h 3)]
    exact returned_bind fun _ _ => rfl
  | case4 c hi rest hc hhi =>
    rw [itemsFrom_cons h, if_neg hc]
    dsimp only [List.getElem?_cons_zero, List.getElem?_cons_succ]
    rw [if_pos rfl, if_neg hhi]
    rfl
  | case5 c dash hi rest hc hd ih =>
    rw [itemsFrom_cons h, if_neg hc, if_neg (by simpa using hd), ih (i + 1) (drop_rest h 1)]
    exact returned_bind fun _ _ => rfl
  | case6 c rest hrest hc =>
    rw [itemsFrom_cons h]
    by_cases hs : isSymbol c = true
    · have hdash : rest = ['-'] := by simpa [hs] using hc
      rw [if_neg (by simpa using hs), hdash]
      rfl
    · rw [if_pos (by simpa using hs)]
      rfl
  | case7 c rest hrest hc ih =>
    have hs : isSymbol c = true ∧ rest ≠ ['-'] := by simpa using hc
    have hdash : rest[0]? ≠ some '-' := by
      cases rest with
      | nil => simp
      | cons d q =>
        cases q with
        | nil => simpa using hs.2
        | cons e q => exact absurd rfl (hrest d e q)
    rw [itemsFrom_cons h, if_neg (by simpa using hs.1), if_neg hdash, ih (i + 1) (drop_rest h 1)]
    exact returned_bind fun _ _ => rfl

theorem classItems_eq (body : Array Char) :
    classItems body = returned (Pattern.classItems body.toList) := by
  unfold classItems Pattern.classItems
  rw [itemsFrom_eq]
  refine returned_bind fun items _ => ?_
  cases items with
  | nil => rfl
  | cons t items => rfl

/-! ## Patterns -/

/-- Whether there is a dash at some place. -/
def dashAt (text : Array Char) (i : Nat) : Except (Stop ε) Bool :=
  if i < text.size then do
    let c ← fetch text i
    .ok (decide (c = '-'))
  else .ok false

/-- The tokens of a pattern from some place on. -/
def expandFrom (text : Array Char) (i : Nat) : Except (Stop PatternError) (List Token) :=
  if i < text.size then do
    let c ← fetch text i
    if c = '[' then do
      let rest ← slice text (i + 1) text.size
      match rest.toList.idxOf? ']' with
      | none => .error (.failure .unmatchedBracket)
      | some offset => do
        let body ← slice text (i + 1) (i + 1 + offset)
        let items ← classItems body
        let tokens ← expandFrom text (i + 1 + offset + 1)
        .ok (grouped items ++ tokens)
    else do
      let dash ← dashAt text (i + 1)
      if isSymbol c && dash then
        match text[i + 2]? with
        | some hi =>
          if isSymbol hi then do
            returned (checkRange c hi)
            let tokens ← expandFrom text (i + 3)
            .ok (range c hi :: tokens)
          else .error (.failure .misplacedRangeOperator)
        | none => .error (.failure .misplacedRangeOperator)
      else do
        let head ← returned (expandChar c)
        let tokens ← expandFrom text (i + 1)
        .ok (head ++ tokens)
  else .ok []
termination_by text.size - i

/-- The explicit form of a pattern. -/
def explicit (text : List Char) : Except (Stop PatternError) (List Char) := do
  returned (checkAlphabet text)
  let tokens ← expandFrom text.toArray 0
  .ok (render (withConcat tokens))

theorem dashAt_eq (h : text.toList.drop i = p) :
    dashAt (ε := ε) text i = .ok (decide (p.head? = some '-')) := by
  unfold dashAt
  cases p with
  | nil =>
    rw [if_neg (not_lt_size h)]
    rfl
  | cons c p =>
    rw [if_pos (lt_size h), fetch_head h, ok_bind]
    simp

theorem idxOf?_append_cons {u : List Char} (hu : ']' ∉ u) (q : List Char) :
    (u ++ ']' :: q).idxOf? ']' = some u.length := by
  induction u with
  | nil => simp [List.idxOf?_cons]
  | cons c u ih =>
    rw [List.mem_cons, not_or] at hu
    rw [List.cons_append, List.idxOf?_cons, ih hu.2]
    simp [Ne.symm hu.1]

/-- One step, at a place where a class begins that ends behind `u`. -/
theorem expandFrom_open {u q : List Char} (h : text.toList.drop i = '[' :: (u ++ ']' :: q))
    (hu : ']' ∉ u) :
    expandFrom text i = (do
      let items ← returned (Pattern.classItems u)
      let tokens ← expandFrom text (i + 1 + u.length + 1)
      .ok (grouped items ++ tokens)) := by
  have hlt := lt_size h
  have hrest : text.toList.drop (i + 1) = u ++ ']' :: q := drop_rest h 1
  rw [expandFrom, if_pos hlt, fetch_head h, ok_bind, if_pos rfl, slice_size hrest hlt, ok_bind,
    idxOf?_append_cons hu]
  dsimp only
  rw [slice_rest hrest hlt, ok_bind, classItems_eq]

/-- A class that begins and does not end. -/
theorem expandFrom_unclosed {p : List Char} (h : text.toList.drop i = '[' :: p) (hp : ']' ∉ p) :
    expandFrom text i = .error (.failure .unmatchedBracket) := by
  have hlt := lt_size h
  have hrest : text.toList.drop (i + 1) = p := drop_rest h 1
  have hnone : p.idxOf? ']' = none := List.idxOf?_eq_none_iff.2 hp
  rw [expandFrom, if_pos hlt, fetch_head h, ok_bind, if_pos rfl, slice_size hrest hlt, ok_bind]
  dsimp only
  rw [hnone]

/-- One step, at a place where no class begins. -/
theorem expandFrom_cons {c : Char} {p : List Char} (h : text.toList.drop i = c :: p) (hc : c ≠ '[') :
    expandFrom text i = (
      if isSymbol c && decide (p.head? = some '-') then
        match p[1]? with
        | some hi =>
          if isSymbol hi then do
            returned (checkRange c hi)
            let tokens ← expandFrom text (i + 3)
            .ok (range c hi :: tokens)
          else .error (.failure .misplacedRangeOperator)
        | none => .error (.failure .misplacedRangeOperator)
      else do
        let head ← returned (expandChar c)
        let tokens ← expandFrom text (i + 1)
        .ok (head ++ tokens)) := by
  rw [expandFrom, if_pos (lt_size h), fetch_head h, ok_bind, if_neg hc, dashAt_eq (drop_rest h 1),
    ok_bind, getElem?_rest h 2]
  rfl

theorem expandFrom_eq (text : Array Char) (i : Nat) :
    expandFrom text i = returned (expand (text.toList.drop i)) := by
  -- What is left after a class need not be the tail of what was left before it.
  generalize hv : text.toList.drop i = v
  induction hn : v.length using Nat.strongRecOn generalizing i v with
  | _ n ih =>
    have next : ∀ {k : Nat} {w : List Char}, v.drop k = w → w.length < v.length →
        expandFrom text (i + k) = returned (expand w) := fun hw hlt =>
      ih _ (hn ▸ hlt) _ _ ((drop_rest hv _).trans hw) rfl
    match v with
    | [] =>
      rw [expandFrom, if_neg (not_lt_size hv), expand]
      rfl
    | c :: p =>
      by_cases hb : c = '['
      · subst hb
        rw [expand_open]
        by_cases hp : ']' ∈ p
        · obtain ⟨u, q, rfl, hu⟩ := List.eq_append_cons_of_mem hp
          have hq : ('[' :: (u ++ ']' :: q)).drop (1 + u.length + 1) = q := by
            rw [show 1 + u.length + 1 = (u.length + 1) + 1 by omega, List.drop_succ_cons]
            simp
          rw [expandFrom_open hv hu, expandClass_append hu]
          refine returned_bind fun items _ => ?_
          rw [show i + 1 + u.length + 1 = i + (1 + u.length + 1) by omega, next hq (by simp; omega)]
          exact returned_bind fun _ _ => rfl
        · rw [expandFrom_unclosed hv hp, expandClass_unclosed hp]
          rfl
      · rw [expandFrom_cons hv hb]
        by_cases hdash : isSymbol c = true ∧ p.head? = some '-'
        · obtain ⟨hc, hd⟩ := hdash
          obtain ⟨q, rfl⟩ := List.head?_eq_some_iff.1 hd
          rw [if_pos (by simp [hc])]
          cases q with
          | nil =>
            rw [expand.eq_def]
            dsimp only
            rw [if_pos (by simp [hc])]
            rfl
          | cons hi q =>
            rw [expand, if_pos (by simp [hc])]
            dsimp only [List.getElem?_cons_zero, List.getElem?_cons_succ]
            split
            · refine returned_bind fun _ _ => ?_
              rw [next (k := 3) rfl (by simp; omega)]
              exact returned_bind fun _ _ => rfl
            · rfl
        · rw [if_neg (by simpa using hdash), expand_cons hb fun hc hd => hdash ⟨hc, hd⟩]
          refine returned_bind fun _ _ => ?_
          rw [next (k := 1) rfl (by simp)]
          exact returned_bind fun _ _ => rfl

theorem explicit_eq (text : List Char) : explicit text = returned (Pattern.explicit text) := by
  unfold explicit Pattern.explicit
  rw [expandFrom_eq]
  refine returned_bind fun _ _ => ?_
  exact returned_bind fun tokens _ => rfl

/-! ## Postorder texts -/

/-- The postorder text of an explicit pattern. -/
def postorder (p : Precedence) (text : List Char) : Except (Stop PatternError) (List Char) := do
  let tokens ← scanFrom true text.toArray 0
  let out ← returned (p.reorder [] tokens)
  .ok (render out)

theorem postorder_eq (p : Precedence) (text : List Char) :
    postorder p text = returned (p.postorder text) := by
  unfold postorder Precedence.postorder
  rw [scanFrom_eq]
  refine returned_bind fun ts _ => ?_
  exact returned_bind fun _ _ => rfl

end PatternAutomata.Guarded
