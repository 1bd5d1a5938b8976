import Solidc.Lib.Marks
import Solidc.Strsim.Levenshtein
import Mathlib.Algebra.Order.Field.Rat
import Mathlib.Algebra.Order.Field.Basic
import Mathlib.Tactic.Linarith

/-! # Jaro-Winkler similarity

`strsim_jaro_winkler` marks, for every letter of the first string, the first unmarked letter of the
second one that is equal and not too far away; a second walk goes through the marks of both strings
side by side. The values are exact rational numbers here.

* `Matching.turn` — the marks of both strings belong to pairs of equal letters;
* `walkMarks_eq` — the second walk finds a mark of the second string for each of the first;
* `jaroValue_mem`, `winklerValue_mem` — both values are between 0 and 1;
* `strsimJaroWinkler_spec` — all of it for any two strings, and 1 for equal ones.
-/

namespace Solidc.Strsim

open CLib

/-! ## The code -/

/-- `JARO_WINKLER_P`. -/
def jaroWinklerP : ℚ := 1 / 10

/-- `JARO_WINKLER_MAX_PREFIX`. -/
def jaroWinklerMaxPrefix : Nat := 4

/-- `max2`. -/
def max2 (a b : Nat) : Nat := if a > b then a else b

/-- `match_dist`. -/
def matchDist (lenA lenB : Nat) : Nat :=
  let maxLen := max2 lenA lenB
  if maxLen / 2 > 0 then maxLen / 2 - 1 else 0

/-- The two halves of the allocation, each with its own end, and `matches`. -/
structure Matches where
  matchedA : List Bool
  matchedB : List Bool
  count : Nat

/-- The inner loop of the first walk, from `j` on, for `n` rounds: where it breaks, if it does. -/
def matchLoop (b : Str) (matchedB : List Bool) (ca : UInt8) (j : Nat) : Nat → Option (Option Nat)
  | 0 => some none
  | n + 1 => do
    let marked ← matchedB[j]?
    if marked then matchLoop b matchedB ca (j + 1) n
    else
      let cb ← b[j]?
      if ca ≠ cb then matchLoop b matchedB ca (j + 1) n else some (some j)

/-- A turn of the first walk. -/
def matchTurn (a b : Str) (matchDist i : Nat) (st : Matches) : Option Matches := do
  let ca ← a[i]?
  let lo := if i > matchDist then i - matchDist else 0
  let hi := min2 (i + matchDist + 1) b.length
  match ← matchLoop b st.matchedB ca lo (hi - lo) with
  | none => some st
  | some j =>
    let matchedA ← mark st.matchedA i
    let matchedB ← mark st.matchedB j
    some ⟨matchedA, matchedB, st.count + 1⟩

/-- "Find matching characters", in an allocation of zeros. -/
def findMatches (a b : Str) : Option Matches :=
  forLoop 0 a.length (matchTurn a b (matchDist a.length b.length))
    ⟨List.replicate a.length false, List.replicate b.length false, 0⟩

/-- A turn of the second walk; the state is `k` and `transpositions`. -/
def walkTurn (a b : Str) (st : Matches) (i : Nat) (walk : Nat × Nat) : Option (Nat × Nat) := do
  let (k, transpositions) := walk
  if ← st.matchedA[i]? then
    let k ← nextMark (st.matchedB.drop k) k
    let ca ← a[i]?
    let cb ← b[k]?
    some (k + 1, if ca ≠ cb then transpositions + 1 else transpositions)
  else some (k, transpositions)

/-- "Count transpositions". -/
def walkMarks (a b : Str) (st : Matches) : Option (Nat × Nat) :=
  forLoop 0 a.length (walkTurn a b st) (0, 0)

/-- "Jaro similarity", of the numbers of matches, letters and transpositions. -/
def jaroValue (count lenA lenB transpositions : Nat) : ℚ :=
  let m : ℚ := count
  let t : ℚ := transpositions / 2
  (m / lenA + m / lenB + (m - t) / m) / 3

/-- `while (prefix < max_prefix && a[prefix] == b[prefix])`, for `n` rounds. -/
def prefixLoop (a b : Str) (k : Nat) : Nat → Option Nat
  | 0 => some k
  | n + 1 => do
    let ca ← a[k]?
    let cb ← b[k]?
    if ca = cb then prefixLoop a b (k + 1) n else some k

/-- "Jaro-Winkler prefix bonus". -/
def winklerValue (jaro : ℚ) (prefixLen : Nat) : ℚ := jaro + prefixLen * jaroWinklerP * (1 - jaro)

/-- `strsim_jaro_winkler`: the similarity or the error code. `calloc` tells whether an array of so
many elements of a size is allocated. -/
def strsimJaroWinkler (calloc : Nat → Nat → Bool) (a b : Option Str) (out : Bool) :
    Option (Except Int ℚ) :=
  match a, b, out with
  | some a, some b, true =>
    if a.length = 0 ∧ b.length = 0 then some (.ok 1)
    else if a.length = 0 ∨ b.length = 0 then some (.ok 0)
    else if calloc (a.length + b.length) 4 = false then some (.error (-2))
    else do
      let st ← findMatches a b
      if st.count = 0 then some (.ok 0)
      else
        let (_, transpositions) ← walkMarks a b st
        let jaro := jaroValue st.count a.length b.length transpositions
        let maxPrefix := min2 (min2 a.length b.length) jaroWinklerMaxPrefix
        let prefixLen ← prefixLoop a b 0 maxPrefix
        some (.ok (winklerValue jaro prefixLen))
  | _, _, _ => some (.error (-1))

/-! ## Matching -/

variable {a b : Str} {d i j k n : Nat} {st : Matches} {pairs : List (Nat × Nat)}

/-- After the turns before `i` the marks belong to pairs of equal letters of the two strings, each
letter in one pair at most, and at most `d` positions apart. -/
structure Matching (a b : Str) (d i : Nat) (st : Matches) (pairs : List (Nat × Nat)) : Prop where
  lengthA : st.matchedA.length = a.length
  lengthB : st.matchedB.length = b.length
  markedA : Marked st.matchedA (pairs.map Prod.fst)
  markedB : Marked st.matchedB (pairs.map Prod.snd)
  count : st.count = pairs.length
  equal : ∀ p ∈ pairs, ∃ c, a[p.1]? = some c ∧ b[p.2]? = some c
  window : ∀ p ∈ pairs, p.1 ≤ p.2 + d ∧ p.2 ≤ p.1 + d
  before : ∀ p ∈ pairs, p.1 < i

/-- The inner loop stays inside both arrays, and breaks only at an unmarked equal letter. -/
theorem matchLoop_spec {matchedB : List Bool} (ca : UInt8) (hlen : matchedB.length = b.length)
    (hn : j + n ≤ b.length) : ∃ r, matchLoop b matchedB ca j n = some r ∧
      ∀ j' ∈ r, j ≤ j' ∧ j' < j + n ∧ matchedB[j']? = some false ∧ b[j']? = some ca := by
  induction n generalizing j with
  | zero =>
    refine ⟨none, rfl, ?_⟩
    intro j' hj'
    cases hj'
  | succ n ih =>
    have hj : j < b.length := by omega
    have hflag := List.getElem?_eq_getElem (hlen ▸ hj : j < matchedB.length)
    have hread := List.getElem?_eq_getElem hj
    obtain ⟨r, hrest, hspec⟩ := @ih (j + 1) (by omega)
    -- when this round goes on, what the rest finds counts
    have hgoesOn : ∀ j' ∈ r, j ≤ j' ∧ j' < j + (n + 1) ∧ matchedB[j']? = some false ∧
        b[j']? = some ca := by
      intro j' hj'
      obtain ⟨hlow, hhigh, hfound⟩ := hspec j' hj'
      exact ⟨by omega, by omega, hfound⟩
    rw [matchLoop, hflag, Option.bind_eq_bind, Option.bind_some]
    cases hmark : matchedB[j] with
    | true => exact ⟨r, hrest, hgoesOn⟩
    | false =>
      rw [if_neg Bool.false_ne_true, hread, Option.bind_eq_bind, Option.bind_some]
      by_cases hequal : ca = b[j]
      · refine ⟨some j, if_neg (not_not.mpr hequal), ?_⟩
        intro j' hj'
        obtain rfl := Option.some.inj hj'
        exact ⟨le_rfl, by omega, by rw [hflag, hmark], by rw [hread, hequal]⟩
      · rw [if_pos hequal]
        exact ⟨r, hrest, hgoesOn⟩

theorem Matching.start (a b : Str) (d : Nat) : Matching a b d 0
    ⟨List.replicate a.length false, List.replicate b.length false, 0⟩ [] := by
  refine ⟨List.length_replicate, List.length_replicate, Marked.fresh _, Marked.fresh _, rfl,
    ?_, ?_, ?_⟩
  all_goals
    intro p hp
    cases hp

/-- The next letter of the first string is paired, or it has no partner. -/
theorem Matching.turn (h : Matching a b d i st pairs) (hi : i < a.length) :
    ∃ st' pairs', matchTurn a b d i st = some st' ∧ Matching a b d (i + 1) st' pairs' := by
  have hread := List.getElem?_eq_getElem hi
  have hlo : (if i > d then i - d else 0) = i - d := by
    split <;> omega
  have hrange : i - d + (min (i + d + 1) b.length - (i - d)) ≤ b.length ∨
      min (i + d + 1) b.length - (i - d) = 0 := by omega
  obtain ⟨r, hloop, hfound⟩ : ∃ r, matchLoop b st.matchedB a[i] (i - d)
      (min (i + d + 1) b.length - (i - d)) = some r ∧ ∀ j ∈ r, i ≤ j + d ∧ j ≤ i + d ∧
        st.matchedB[j]? = some false ∧ b[j]? = some a[i] := by
    rcases hrange with hrange | hnone
    · obtain ⟨r, hloop, hspec⟩ := matchLoop_spec a[i] h.lengthB hrange
      refine ⟨r, hloop, ?_⟩
      intro j hj
      obtain ⟨hlow, hhigh, hfree, hequal⟩ := hspec j hj
      exact ⟨by omega, by omega, hfree, hequal⟩
    · rw [hnone]
      refine ⟨none, rfl, ?_⟩
      intro j hj
      cases hj
  rw [matchTurn, hread, Option.bind_eq_bind, Option.bind_some, hlo, min2_eq]
  dsimp only
  rw [hloop, Option.bind_eq_bind, Option.bind_some]
  cases r with
  | none =>
    refine ⟨st, pairs, rfl, h.lengthA, h.lengthB, h.markedA, h.markedB, h.count, h.equal,
      h.window, ?_⟩
    intro p hp
    exact Nat.lt_succ_of_lt (h.before p hp)
  | some j =>
    obtain ⟨hlow, hhigh, hfree, hequal⟩ := hfound j rfl
    -- no pair has this letter yet, so it is unmarked
    have hunmarked : st.matchedA[i]? = some false := by
      have hlt : i < st.matchedA.length := h.lengthA ▸ hi
      cases hflag : st.matchedA[i] with
      | false => rw [List.getElem?_eq_getElem hlt, hflag]
      | true =>
        have hmem := (h.markedA.mem i).mp (by rw [List.getElem?_eq_getElem hlt, hflag])
        obtain ⟨p, hp, hfst⟩ := List.mem_map.mp hmem
        have hbefore := h.before p hp
        omega
    have hmarkA : mark st.matchedA i = some (st.matchedA.set i true) :=
      if_pos (h.lengthA ▸ hi)
    have hmarkB : mark st.matchedB j = some (st.matchedB.set j true) :=
      if_pos (List.getElem?_eq_some_iff.mp hfree).1
    have hmarkedA := h.markedA.mark hunmarked
    have hmarkedB := h.markedB.mark hfree
    refine ⟨⟨st.matchedA.set i true, st.matchedB.set j true, st.count + 1⟩, pairs ++ [(i, j)],
      ?_, ?_, ?_, ?_, ?_, ?_, ?_, ?_, ?_⟩
    · dsimp only
      rw [hmarkA, hmarkB]
      rfl
    · rw [List.length_set, h.lengthA]
    · rw [List.length_set, h.lengthB]
    · rw [List.map_append]
      exact hmarkedA
    · rw [List.map_append]
      exact hmarkedB
    · rw [List.length_append, h.count, List.length_singleton]
    · intro p hp
      rcases List.mem_append.mp hp with hp | hp
      · exact h.equal p hp
      · rw [List.mem_singleton.mp hp]
        exact ⟨a[i], hread, hequal⟩
    · intro p hp
      rcases List.mem_append.mp hp with hp | hp
      · exact h.window p hp
      · rw [List.mem_singleton.mp hp]
        exact ⟨hlow, hhigh⟩
    · intro p hp
      rcases List.mem_append.mp hp with hp | hp
      · exact Nat.lt_succ_of_lt (h.before p hp)
      · rw [List.mem_singleton.mp hp]
        exact Nat.lt_succ_self i

/-- The first walk. -/
theorem findMatches_eq (a b : Str) : ∃ st pairs, findMatches a b = some st ∧
    Matching a b (matchDist a.length b.length) a.length st pairs := by
  have hstep : ∀ i st, 0 ≤ i → i < a.length →
      (∃ pairs, Matching a b (matchDist a.length b.length) i st pairs) →
      ∃ st', matchTurn a b (matchDist a.length b.length) i st = some st' ∧
        ∃ pairs, Matching a b (matchDist a.length b.length) (i + 1) st' pairs := by
    intro i st _ hi hinv
    obtain ⟨pairs, hmatching⟩ := hinv
    obtain ⟨st', pairs', hturn, hnext⟩ := hmatching.turn hi
    exact ⟨st', hturn, pairs', hnext⟩
  obtain ⟨st, hrun, pairs, hmatching⟩ := forLoop_inv
    (fun i st => ∃ pairs, Matching a b (matchDist a.length b.length) i st pairs)
    (Nat.zero_le a.length) ⟨[], Matching.start a b _⟩ hstep
  exact ⟨st, pairs, hrun, hmatching⟩

namespace Matching

/-- As many marks in the one string as in the other. -/
theorem counts (h : Matching a b d i st pairs) :
    st.matchedA.count true = st.count ∧ st.matchedB.count true = st.count := by
  rw [h.markedA.count, h.markedB.count, h.count, List.length_map, List.length_map]
  exact ⟨rfl, rfl⟩

theorem count_le (h : Matching a b d i st pairs) : st.count ≤ a.length ∧ st.count ≤ b.length := by
  have hA := List.count_le_length (a := true) (l := st.matchedA)
  have hB := List.count_le_length (a := true) (l := st.matchedB)
  rw [h.counts.1, h.lengthA] at hA
  rw [h.counts.2, h.lengthB] at hB
  exact ⟨hA, hB⟩

end Matching

/-! ## The second walk -/

/-- Before the turn `i` as many marks are left in the one string as in the other, and there were
no more differences than marks. -/
structure Walking (a b : Str) (st : Matches) (i : Nat) (walk : Nat × Nat) : Prop where
  left : (st.matchedB.drop walk.1).count true = (st.matchedA.drop i).count true
  inside : walk.1 ≤ b.length
  transpositions : walk.2 + (st.matchedA.drop i).count true ≤ st.count

theorem Walking.turn {walk : Nat × Nat} (hmatching : Matching a b d a.length st pairs)
    (h : Walking a b st i walk) (hi : i < a.length) :
    ∃ walk', walkTurn a b st i walk = some walk' ∧ Walking a b st (i + 1) walk' := by
  obtain ⟨k, transpositions⟩ := walk
  have hleft := h.left
  have hinside := h.inside
  have htranspositions := h.transpositions
  dsimp only at hleft hinside htranspositions
  have hlt : i < st.matchedA.length := hmatching.lengthA ▸ hi
  have hflag := List.getElem?_eq_getElem hlt
  rw [walkTurn, hflag, Option.bind_eq_bind, Option.bind_some]
  cases hmark : st.matchedA[i] with
  | false =>
    rw [hmark] at hflag
    have hcount := count_drop_of_not_mark hflag
    refine ⟨(k, transpositions), rfl, hleft.trans hcount, hinside, ?_⟩
    rw [← hcount]
    exact htranspositions
  | true =>
    rw [hmark] at hflag
    have hcount := count_drop_of_mark hflag
    -- a mark is left in the first string, so one is left in the second
    have hsome : 0 < (st.matchedB.drop k).count true := by omega
    obtain ⟨j, hnext, hle, hmarkB, hcountB⟩ := nextMark_spec hsome
    have hj : j < b.length := hmatching.lengthB ▸ (List.getElem?_eq_some_iff.mp hmarkB).1
    rw [if_pos rfl, hnext, Option.bind_eq_bind, Option.bind_some, List.getElem?_eq_getElem hi,
      Option.bind_eq_bind, Option.bind_some, List.getElem?_eq_getElem hj, Option.bind_some]
    refine ⟨_, rfl, ?_, hj, ?_⟩
    · dsimp only
      omega
    · dsimp only
      split <;> omega

/-- The second walk. -/
theorem walkMarks_eq (hmatching : Matching a b d a.length st pairs) :
    ∃ k transpositions, walkMarks a b st = some (k, transpositions) ∧ k ≤ b.length ∧
      transpositions ≤ st.count := by
  have hstart : Walking a b st 0 (0, 0) := by
    refine ⟨?_, Nat.zero_le _, ?_⟩
    · rw [List.drop_zero, List.drop_zero, hmatching.counts.1, hmatching.counts.2]
    · rw [List.drop_zero, hmatching.counts.1, Nat.zero_add]
  obtain ⟨⟨k, transpositions⟩, hrun, hwalking⟩ := forLoop_inv (Walking a b st)
    (Nat.zero_le a.length) hstart fun i walk _ hi hwalking => hwalking.turn hmatching hi
  exact ⟨k, transpositions, hrun, hwalking.inside,
    (Nat.le_add_right _ _).trans hwalking.transpositions⟩

/-! ## Equal strings -/

/-- A string is matched with itself letter by letter. -/
structure Diagonal (a : Str) (i : Nat) (st : Matches) : Prop where
  lengthA : st.matchedA.length = a.length
  lengthB : st.matchedB.length = a.length
  firstA : FirstMarked st.matchedA i
  firstB : FirstMarked st.matchedB i
  count : st.count = i

/-- All letters in front are marked, so the inner loop comes to the letter itself. -/
theorem matchLoop_first {matchedB : List Bool} {ca : UInt8} (hfirst : FirstMarked matchedB i)
    (hlen : matchedB.length = b.length) (hread : b[i]? = some ca) (hj : j ≤ i) (hn : i < j + n) :
    matchLoop b matchedB ca j n = some (some i) := by
  have hi : i < b.length := (List.getElem?_eq_some_iff.mp hread).1
  induction n generalizing j with
  | zero => omega
  | succ n ih =>
    rw [matchLoop, hfirst j (by omega), Option.bind_eq_bind, Option.bind_some]
    by_cases hji : j = i
    · subst hji
      rw [decide_eq_false (Nat.lt_irrefl j), if_neg Bool.false_ne_true, hread,
        Option.bind_eq_bind, Option.bind_some]
      exact if_neg (not_not.mpr rfl)
    · rw [decide_eq_true (by omega : j < i), if_pos rfl]
      exact ih (by omega) (by omega)

theorem Diagonal.turn (h : Diagonal a i st) (hi : i < a.length) :
    ∃ st', matchTurn a a d i st = some st' ∧ Diagonal a (i + 1) st' := by
  have hread := List.getElem?_eq_getElem hi
  have hlo : (if i > d then i - d else 0) = i - d := by
    split <;> omega
  have hloop : matchLoop a st.matchedB a[i] (i - d) (min (i + d + 1) a.length - (i - d)) =
      some (some i) :=
    matchLoop_first h.firstB h.lengthB hread (Nat.sub_le _ _) (by omega)
  have hmarkA : mark st.matchedA i = some (st.matchedA.set i true) := if_pos (h.lengthA ▸ hi)
  have hmarkB : mark st.matchedB i = some (st.matchedB.set i true) := if_pos (h.lengthB ▸ hi)
  refine ⟨⟨st.matchedA.set i true, st.matchedB.set i true, st.count + 1⟩, ?_, ?_⟩
  · rw [matchTurn, hread, Option.bind_eq_bind, Option.bind_some, hlo, min2_eq]
    dsimp only
    rw [hloop, Option.bind_eq_bind, Option.bind_some]
    dsimp only
    rw [hmarkA, hmarkB]
    rfl
  · exact ⟨by rw [List.length_set, h.lengthA], by rw [List.length_set, h.lengthB],
      h.firstA.succ, h.firstB.succ, by rw [h.count]⟩

theorem findMatches_self (a : Str) : ∃ st, findMatches a a = some st ∧ Diagonal a a.length st :=
  forLoop_inv (Diagonal a) (Nat.zero_le a.length)
    ⟨List.length_replicate, List.length_replicate, FirstMarked.fresh _, FirstMarked.fresh _, rfl⟩
    fun _ _ _ hi hdiagonal => hdiagonal.turn hi

/-- The second walk finds the same letters. -/
theorem walkMarks_self (h : Diagonal a a.length st) :
    walkMarks a a st = some (a.length, 0) := by
  have hstep : ∀ i walk, 0 ≤ i → i < a.length → walk = (i, 0) →
      ∃ walk', walkTurn a a st i walk = some walk' ∧ walk' = (i + 1, 0) := by
    intro i walk _ hi hwalk
    subst hwalk
    have hflagA : st.matchedA[i]? = some true := by
      rw [h.firstA i (h.lengthA ▸ hi), decide_eq_true hi]
    have hflagB : st.matchedB[i]? = some true := by
      rw [h.firstB i (h.lengthB ▸ hi), decide_eq_true hi]
    refine ⟨(i + 1, 0), ?_, rfl⟩
    rw [walkTurn, hflagA, Option.bind_eq_bind, Option.bind_some, if_pos rfl,
      nextMark_of_mark hflagB, Option.bind_eq_bind, Option.bind_some,
      List.getElem?_eq_getElem hi, Option.bind_eq_bind, Option.bind_some, Option.bind_some,
      if_neg (not_not.mpr rfl)]
  obtain ⟨walk, hrun, hwalk⟩ := forLoop_inv (fun i walk => walk = (i, 0)) (Nat.zero_le a.length)
    rfl hstep
  rw [hwalk] at hrun
  exact hrun

/-! ## The values -/

/-- A part of a whole. -/
theorem div_mem {x y : ℚ} (hx : 0 ≤ x) (hxy : x ≤ y) : 0 ≤ x / y ∧ x / y ≤ 1 :=
  ⟨div_nonneg hx (hx.trans hxy), div_le_one_of_le₀ hxy (hx.trans hxy)⟩

/-- The three parts are at most 1 each. -/
theorem jaroValue_mem {count lenA lenB transpositions : Nat} (hA : count ≤ lenA)
    (hB : count ≤ lenB) (ht : transpositions ≤ count) :
    0 ≤ jaroValue count lenA lenB transpositions ∧
      jaroValue count lenA lenB transpositions ≤ 1 := by
  have hcount : (0 : ℚ) ≤ count := Nat.cast_nonneg _
  have htpos : (0 : ℚ) ≤ transpositions := Nat.cast_nonneg _
  have htle : (transpositions : ℚ) ≤ count := Nat.cast_le.mpr ht
  have hpartA := div_mem hcount (Nat.cast_le.mpr hA : (count : ℚ) ≤ lenA)
  have hpartB := div_mem hcount (Nat.cast_le.mpr hB : (count : ℚ) ≤ lenB)
  have hpart : 0 ≤ ((count : ℚ) - transpositions / 2) / count ∧
      ((count : ℚ) - transpositions / 2) / count ≤ 1 :=
    div_mem (by linarith) (by linarith)
  unfold jaroValue
  dsimp only
  constructor
  · linarith
  · linarith

theorem jaroValue_self {n : Nat} (h : n ≠ 0) : jaroValue n n n 0 = 1 := by
  have hn : (n : ℚ) ≠ 0 := Nat.cast_ne_zero.mpr h
  unfold jaroValue
  dsimp only
  rw [Nat.cast_zero, zero_div, sub_zero, div_self hn]
  norm_num

/-- The bonus is at most four tenths of what is missing to 1. -/
theorem winklerValue_mem {jaro : ℚ} {p : Nat} (h : 0 ≤ jaro ∧ jaro ≤ 1)
    (hp : p ≤ jaroWinklerMaxPrefix) : 0 ≤ winklerValue jaro p ∧ winklerValue jaro p ≤ 1 := by
  have hp' : (p : ℚ) ≤ 4 := by exact_mod_cast hp
  have hpos : (0 : ℚ) ≤ p := Nat.cast_nonneg p
  have hmissing : 0 ≤ 1 - jaro := by linarith [h.2]
  have hbonus : 0 ≤ (p : ℚ) * jaroWinklerP * (1 - jaro) := by
    unfold jaroWinklerP
    positivity
  have hle : (p : ℚ) * jaroWinklerP * (1 - jaro) ≤ 1 * (1 - jaro) := by
    refine mul_le_mul_of_nonneg_right ?_ hmissing
    unfold jaroWinklerP
    linarith
  unfold winklerValue
  constructor
  · linarith [h.1]
  · linarith

theorem winklerValue_one (p : Nat) : winklerValue 1 p = 1 := by
  rw [winklerValue, sub_self, mul_zero, add_zero]

/-- The loop over the common beginning stays inside both strings. -/
theorem prefixLoop_spec (hA : k + n ≤ a.length) (hB : k + n ≤ b.length) :
    ∃ p, prefixLoop a b k n = some p ∧ p ≤ k + n := by
  induction n generalizing k with
  | zero => exact ⟨k, rfl, le_rfl⟩
  | succ n ih =>
    have hreadA := List.getElem?_eq_getElem (by omega : k < a.length)
    have hreadB := List.getElem?_eq_getElem (by omega : k < b.length)
    rw [prefixLoop, hreadA, hreadB, Option.bind_eq_bind, Option.bind_some, Option.bind_some]
    split
    · obtain ⟨p, hrest, hle⟩ := @ih (k + 1) (by omega) (by omega)
      exact ⟨p, hrest, by omega⟩
    · exact ⟨k, rfl, by omega⟩

/-- What the two walks find in a string and itself. -/
theorem walks_self {transpositions : Nat} (hfind : findMatches a a = some st)
    (hwalk : walkMarks a a st = some (k, transpositions)) :
    st.count = a.length ∧ transpositions = 0 := by
  obtain ⟨st', hfind', hdiagonal⟩ := findMatches_self a
  obtain rfl := Option.some.inj (hfind.symm.trans hfind')
  have hself := Option.some.inj (hwalk.symm.trans (walkMarks_self hdiagonal))
  exact ⟨hdiagonal.count, (Prod.mk.inj hself).2⟩

/-- The similarity, for two strings that are not empty. -/
theorem strsimJaroWinkler_eq {calloc : Nat → Nat → Bool} {transpositions : Nat}
    (hA : a.length ≠ 0) (hB : b.length ≠ 0) (halloc : calloc (a.length + b.length) 4 = true)
    (hfind : findMatches a b = some st) (hwalk : walkMarks a b st = some (k, transpositions)) :
    ∃ p, p ≤ jaroWinklerMaxPrefix ∧ strsimJaroWinkler calloc (some a) (some b) true =
      some (.ok (if st.count = 0 then 0
        else winklerValue (jaroValue st.count a.length b.length transpositions) p)) := by
  have hmax : min (min a.length b.length) jaroWinklerMaxPrefix ≤ a.length ∧
      min (min a.length b.length) jaroWinklerMaxPrefix ≤ b.length := by omega
  obtain ⟨p, hprefix, hle⟩ := @prefixLoop_spec a b 0
    (min (min a.length b.length) jaroWinklerMaxPrefix) (by omega) (by omega)
  refine ⟨p, by omega, ?_⟩
  unfold strsimJaroWinkler
  dsimp only
  rw [if_neg (fun h => hA h.1), if_neg (not_or.mpr ⟨hA, hB⟩), if_neg (by rw [halloc]; decide),
    hfind, Option.bind_eq_bind, Option.bind_some]
  split
  · rfl
  · rw [hwalk, Option.bind_eq_bind, Option.bind_some]
    dsimp only
    rw [min2_eq, min2_eq, hprefix]
    rfl

/-- For any two strings the first walk marks as many letters of the one as of the other, in pairs
of equal letters within the window; so the second walk never leaves the marks of the second string,
and finds at most as many differences. The values are between 0 and 1, and 1 for equal strings. -/
theorem strsimJaroWinkler_spec (a b : Str) : ∃ st pairs k transpositions,
    findMatches a b = some st ∧
    Matching a b (matchDist a.length b.length) a.length st pairs ∧
    st.matchedA.count true = st.count ∧ st.matchedB.count true = st.count ∧
    walkMarks a b st = some (k, transpositions) ∧ k ≤ b.length ∧ transpositions ≤ st.count ∧
    (st.count ≠ 0 → 0 ≤ jaroValue st.count a.length b.length transpositions ∧
      jaroValue st.count a.length b.length transpositions ≤ 1 ∧
      (a = b → jaroValue st.count a.length b.length transpositions = 1)) ∧
    ∀ calloc : Nat → Nat → Bool, calloc (a.length + b.length) 4 = true →
      ∃ v, strsimJaroWinkler calloc (some a) (some b) true = some (.ok v) ∧ 0 ≤ v ∧ v ≤ 1 ∧
        (a = b → v = 1) := by
  obtain ⟨st, pairs, hfind, hmatching⟩ := findMatches_eq a b
  obtain ⟨k, transpositions, hwalk, hk, ht⟩ := walkMarks_eq hmatching
  have hjaro := jaroValue_mem hmatching.count_le.1 hmatching.count_le.2 ht
  have hself : st.count ≠ 0 → a = b →
      jaroValue st.count a.length b.length transpositions = 1 := by
    rintro hcount rfl
    obtain ⟨hlen, hzero⟩ := walks_self hfind hwalk
    rw [hzero, ← hlen]
    exact jaroValue_self hcount
  refine ⟨st, pairs, k, transpositions, hfind, hmatching, hmatching.counts.1, hmatching.counts.2,
    hwalk, hk, ht, fun hcount => ⟨hjaro.1, hjaro.2, hself hcount⟩, ?_⟩
  intro calloc halloc
  by_cases hempty : a.length = 0 ∨ b.length = 0
  · -- nothing is walked
    unfold strsimJaroWinkler
    dsimp only
    by_cases hboth : a.length = 0 ∧ b.length = 0
    · rw [if_pos hboth]
      exact ⟨1, rfl, zero_le_one, le_rfl, fun _ => rfl⟩
    · rw [if_neg hboth, if_pos hempty]
      refine ⟨0, rfl, le_rfl, zero_le_one, ?_⟩
      rintro rfl
      exact absurd (and_self_iff.mpr (or_self_iff.mp hempty)) hboth
  · rw [not_or] at hempty
    obtain ⟨p, hp, hvalue⟩ := strsimJaroWinkler_eq hempty.1 hempty.2 halloc hfind hwalk
    refine ⟨_, hvalue, ?_⟩
    by_cases hcount : st.count = 0
    · -- a string that is not empty matches itself
      rw [if_pos hcount]
      refine ⟨le_rfl, zero_le_one, ?_⟩
      rintro rfl
      exact absurd ((walks_self hfind hwalk).1.symm.trans hcount) hempty.1
    · rw [if_neg hcount]
      obtain ⟨hlow, hhigh⟩ := winklerValue_mem hjaro hp
      refine ⟨hlow, hhigh, ?_⟩
      intro heq
      rw [hself hcount heq, winklerValue_one]

-- MARTHA and MARHTA: six matches, two of them exchanged
example : strsimJaroWinkler (fun _ _ => true) (some [0x4D, 0x41, 0x52, 0x54, 0x48, 0x41])
    (some [0x4D, 0x41, 0x52, 0x48, 0x54, 0x41]) true = some (.ok (173 / 180)) := by decide +kernel

end Solidc.Strsim
