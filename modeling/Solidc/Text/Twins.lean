import Solidc.Text.Finding

/-! # Needles in two forms

Operations of `cstr.c` that take their needle as a `char*` or as a `cstr`. Both forms are written
out in the source. They read the same bytes of the needle, so they agree wherever their tests of
its length do.

* `removeLoop_defined` — the loop of the removals stays inside the string, whatever it holds;
* `twins_agree` — all of the pairs agree, but for the reverse search for nothing.
-/

namespace Solidc.Text

open CLib

/-! ## The code -/

/-- `cstr_starts_with` and `cstr_starts_with_cstr`, for the first `plen` bytes of `pre`. -/
def startsWith (s : Cstr) (pre : List UInt8) (plen : Nat) : Option Bool :=
  if plen = 0 then some true
  else if plen > s.length then some false
  else memcmpEq s.mem 0 pre 0 plen

def cstrStartsWith (s : Cstr) (pre : CText) : Option Bool := startsWith s pre.mem pre.len
def cstrStartsWithCstr (s pre : Cstr) : Option Bool := startsWith s pre.mem pre.length

/-- `cstr_ends_with` and `cstr_ends_with_cstr`, for the first `slen` bytes of `suffix`. -/
def endsWith (s : Cstr) (suffix : List UInt8) (slen : Nat) : Option Bool :=
  if slen = 0 then some true
  else if slen > s.length then some false
  else memcmpEq s.mem (s.length - slen) suffix 0 slen

def cstrEndsWith (s : Cstr) (suffix : CText) : Option Bool := endsWith s suffix.mem suffix.len
def cstrEndsWithCstr (s suffix : Cstr) : Option Bool := endsWith s suffix.mem suffix.length

def cstrCountSubstrCstr (s sub : Cstr) : Option Nat :=
  if sub.length = 0 ∨ sub.length > s.length then some 0
  else
    let nlen := sub.length
    countLoop (fun p rem => cstrSearch s.mem p rem sub.mem nlen) s.length nlen
      (s.length + 1) 0 s.length 0

/-- The tests of `cstr_remove_all_cstr`, which compare 32-bit lengths. -/
def cstrRemoveCstrTest (sub : List UInt8) (subLen last : Nat) (mem : List UInt8) (r : Nat) :
    Option (Option Bool) :=
  if r < last then
    let rem := subSize last r
    if toU32 rem ≥ subLen then (memcmpEq mem r sub 0 subLen).map some else some (some false)
  else some none

/-- `cstr_remove_all_cstr`, with the number that it returns. -/
def cstrRemoveAllCstr (s substr : Cstr) : Option (Cstr × Nat) :=
  let subLen := substr.length
  if subLen = 0 then some (s, 0)
  else do
    let (mem, w, count) ← removeLoop (cstrRemoveCstrTest substr.mem subLen s.length) subLen
      (s.length + 1) s.mem 0 0 0
    let mem ← store mem w [0]
    some ({ s.setMem mem with length := toU32 w }, count)

/-! ## Agreement -/

/-- Both calls return, and the same. -/
def Same {α : Type} (a b : Option α) : Prop := ∃ r, a = some r ∧ b = some r

theorem Same.of_eq {α : Type} {a b : Option α} {r : α} (ha : a = some r) (hb : b = some r) :
    Same a b :=
  ⟨r, ha, hb⟩

theorem same_iff_eq {α : Type} {a b : Option α} {x y : α} (ha : a = some x) (hb : b = some y) :
    Same a b ↔ x = y := by
  rw [ha, hb]
  constructor
  · rintro ⟨r, hx, hy⟩
    exact (Option.some.inj hx).trans (Option.some.inj hy).symm
  · rintro rfl
    exact ⟨x, rfl, rfl⟩

variable {s sub : Cstr} {t : CText} {xs d : List UInt8}

theorem find_eq (h : s.Spans xs) (post : List UInt8) :
    (cstrSearch s.mem 0 s.length (d ++ post) d.length).map foundIndex =
      some (foundIndex (findSub d xs)) := by
  obtain ⟨rest, hmem⟩ := h.mem
  rw [h.length, hmem, cstrSearch, searchImpl_whole, Option.map_some]

theorem startsWith_eq (h : s.Spans xs) (post : List UInt8) :
    startsWith s (d ++ post) d.length = some (decide (d <+: xs)) := by
  obtain ⟨rest, hmem⟩ := h.mem
  unfold startsWith
  split
  case isTrue hzero =>
    obtain rfl := List.length_eq_zero_iff.mp hzero
    rw [decide_eq_true List.nil_prefix]
  case isFalse hne =>
    rw [h.length]
    split
    case isTrue hlong =>
      have hno : ¬ d <+: xs := fun hpre => Nat.not_le_of_lt hlong hpre.length_le
      rw [decide_eq_false hno]
    case isFalse hfits =>
      rw [hmem, memcmpEq_eq (by rw [List.length_append]; omega) (by rw [List.length_append]; omega)]
      refine congrArg some (decide_eq_decide.mpr ?_)
      rw [List.drop_zero, List.drop_zero, List.take_left, List.prefix_iff_eq_take,
        List.take_append_of_le_length (not_lt.mp hfits), eq_comm]

theorem endsWith_eq (h : s.Spans xs) (post : List UInt8) :
    endsWith s (d ++ post) d.length = some (decide (d <:+ xs)) := by
  obtain ⟨rest, hmem⟩ := h.mem
  unfold endsWith
  split
  case isTrue hzero =>
    obtain rfl := List.length_eq_zero_iff.mp hzero
    rw [decide_eq_true List.nil_suffix]
  case isFalse hne =>
    rw [h.length]
    split
    case isTrue hlong =>
      have hno : ¬ d <:+ xs := fun hsuf => Nat.not_le_of_lt hlong hsuf.length_le
      rw [decide_eq_false hno]
    case isFalse hfits =>
      have hwin : ((xs ++ rest).drop (xs.length - d.length)).take d.length =
          xs.drop (xs.length - d.length) := by
        rw [List.drop_append_of_le_length (Nat.sub_le _ _)]
        exact List.take_left' (by rw [List.length_drop]; omega)
      rw [hmem, memcmpEq_eq (by rw [List.length_append]; omega) (by rw [List.length_append]; omega),
        hwin]
      refine congrArg some (decide_eq_decide.mpr ?_)
      rw [List.drop_zero, List.take_left, List.suffix_iff_eq_drop, eq_comm]

theorem cstrCountSubstrCstr_eq (h : s.Spans xs) (hsub : sub.Spans d) (hd : d ≠ []) :
    cstrCountSubstrCstr s sub = some ((pieces d xs).length - 1) := by
  obtain ⟨rest, hmem⟩ := h.mem
  obtain ⟨post, hpost⟩ := hsub.mem
  have hlen : d.length ≠ 0 := (List.length_pos_iff.mpr hd).ne'
  rw [cstrCountSubstrCstr, h.length, hmem, hsub.length, hpost]
  split
  case isTrue hshort =>
    rw [pieces_of_short (hshort.resolve_left hlen)]
    rfl
  case isFalse =>
    have hrun := countLoop_eq (searchImpl_finds hd rest post) hd 0 (Nat.zero_le _)
      (Nat.lt_succ_self xs.length)
    rw [List.drop_zero, Nat.zero_add] at hrun
    exact hrun

/-! ### Removing -/

/-- The loop keeps writing behind what it reads. -/
theorem removeLoop_defined {last : Nat} (hsub : d.length ≠ 0) (post : List UInt8) {fuel : Nat}
    {mem : List UInt8} {w r : Nat} (count : Nat) (hw : w ≤ r) (hr : r ≤ last)
    (hlast : last ≤ mem.length) (hfuel : last - r < fuel) :
    ∃ mem' w' count', removeLoop (cstrRemoveTest (d ++ post) d.length last) d.length fuel mem w r
      count = some (mem', w', count') ∧ w' ≤ last ∧ mem'.length = mem.length := by
  induction fuel generalizing mem w r count with
  | zero => exact absurd hfuel (Nat.not_lt_zero _)
  | succ fuel ih =>
    rw [removeLoop, cstrRemoveTest]
    by_cases hend : r < last
    · -- a byte is kept, or the needle is passed over
      have hkeep : ∃ mem' w' count', (do
          let c ← mem[r]?
          let mem ← store mem w [c]
          removeLoop (cstrRemoveTest (d ++ post) d.length last) d.length fuel mem (w + 1) (r + 1)
            count) = some (mem', w', count') ∧ w' ≤ last ∧ mem'.length = mem.length := by
        have hfits : w + [mem[r]].length ≤ mem.length := by
          rw [List.length_singleton]
          omega
        have hstore := store_eq hfits
        have hlen := length_store hstore
        rw [List.getElem?_eq_getElem (by omega)]
        simp only [Option.bind_eq_bind, Option.bind_some, hstore]
        obtain ⟨mem', w', count', hrun, hw', hmem'⟩ :=
          ih count (by omega : w + 1 ≤ r + 1) hend (by rw [hlen]; exact hlast) (by omega)
        exact ⟨mem', w', count', hrun, hw', hmem'.trans hlen⟩
      rw [if_pos hend, subSize_eq hr]
      dsimp only
      by_cases hroom : last - r ≥ d.length
      · rw [if_pos hroom, memcmpEq_eq (by omega) (by rw [List.length_append]; omega)]
        simp only [Option.map_some, Option.bind_eq_bind, Option.bind_some]
        split
        · next heq => cases heq
        · exact ih (count + 1) (by omega) (by omega) hlast (by omega)
        · exact hkeep
      · rw [if_neg hroom]
        exact hkeep
    · rw [if_neg hend]
      exact ⟨mem, w, count, rfl, by omega, rfl⟩

theorem cstrRemoveAll_defined (h : s.Holds xs) (t : CText) :
    ∃ r, cstrRemoveAll s t = some r := by
  have hroom := h.length_lt
  rw [cstrRemoveAll]
  split
  case isTrue => exact ⟨_, rfl⟩
  case isFalse hne =>
    have hlast : s.length ≤ s.mem.length := by
      rw [h.length]
      omega
    obtain ⟨mem, w, count, hrun, hw, hmem⟩ := removeLoop_defined (d := t.bytes) hne [0] 0
      (Nat.zero_le 0) (Nat.zero_le s.length) hlast (Nat.lt_succ_self s.length)
    have hfits : w + [(0 : UInt8)].length ≤ mem.length := by
      rw [h.length] at hw
      rw [List.length_singleton]
      omega
    have hstore := store_eq hfits
    change ∃ r, (removeLoop (cstrRemoveTest (t.bytes ++ [0]) t.bytes.length s.length) t.bytes.length
      (s.length + 1) s.mem 0 0 0).bind _ = some r
    rw [Nat.succ_eq_add_one] at hrun
    rw [hrun]
    simp only [Option.bind_eq_bind, Option.bind_some, hstore]
    exact ⟨_, rfl⟩

/-- Comparing 32-bit lengths is enough in a string, and no byte behind the needle is compared. -/
theorem cstrRemoveCstrTest_eq {last : Nat} (hlast : last < 2 ^ 32) (post post' : List UInt8) :
    cstrRemoveCstrTest (d ++ post) d.length last = cstrRemoveTest (d ++ post') d.length last := by
  funext mem r
  unfold cstrRemoveCstrTest cstrRemoveTest
  by_cases hend : r < last
  · have hrem : toU32 (last - r) = last - r := Nat.mod_eq_of_lt (by omega)
    have hload : ∀ l, load (d ++ l) 0 d.length = some d := by
      intro l
      have := @load_append _ l [] d
      rwa [List.nil_append] at this
    rw [if_pos hend, if_pos hend, subSize_eq (Nat.le_of_lt hend)]
    dsimp only
    rw [hrem, memcmpEq, memcmpEq, hload, hload]
  · rw [if_neg hend, if_neg hend]

theorem cstrRemoveAllCstr_eq (h : s.Holds xs) (hsub : sub.Holds t.bytes) :
    cstrRemoveAllCstr s sub = cstrRemoveAll s t := by
  obtain ⟨rest, hmem⟩ := hsub.mem
  have hmax := h.length_lt_max
  unfold cstrMaxLen at hmax
  have htest := cstrRemoveCstrTest_eq (d := t.bytes) (by rw [h.length]; omega : s.length < 2 ^ 32)
    (0 :: rest) [0]
  rw [cstrRemoveAllCstr, hsub.length, hmem, htest]
  rfl

/-! ## The pairs -/

theorem count_same (h : s.Holds xs) (hsub : sub.Holds t.bytes) :
    Same (cstrCountSubstr s t) (cstrCountSubstrCstr s sub) := by
  by_cases ht : t.bytes = []
  · -- nothing is not counted in either form
    have hlen : t.len = 0 := by rw [CString.len, ht, List.length_nil]
    have hlen' : sub.length = 0 := by rw [hsub.length, ht, List.length_nil]
    exact .of_eq (if_pos (.inl hlen)) (if_pos (.inl hlen'))
  · exact .of_eq (cstrCountSubstr_eq h ht) (cstrCountSubstrCstr_eq h.spans hsub.spans ht)

theorem removeAll_same (h : s.Holds xs) (hsub : sub.Holds t.bytes) :
    Same (cstrRemoveAll s t) (cstrRemoveAllCstr s sub) := by
  obtain ⟨r, hr⟩ := cstrRemoveAll_defined h t
  exact .of_eq hr ((cstrRemoveAllCstr_eq h hsub).trans hr)

/-- The reverse search for nothing is refused in one form and ends behind the string in the
other. -/
theorem rfind_same_iff (h : s.Holds xs) (hsub : sub.Holds t.bytes) :
    Same (cstrRfind s t) (cstrRfindCstr s sub) ↔ t.bytes ≠ [] := by
  by_cases ht : t.bytes = []
  · have hlen : t.len = 0 := by rw [CString.len, ht, List.length_nil]
    have hlen' : sub.length = 0 := by rw [hsub.length, ht, List.length_nil]
    have hmax := h.length_lt_max
    unfold cstrMaxLen at hmax
    have hleft : cstrRfind s t = some cstrNpos := if_pos (.inl hlen)
    have hright : cstrRfindCstr s sub = some (xs.length : Int) := by
      rw [cstrRfindCstr, if_pos hlen', h.length, toInt_eq (by omega)]
    rw [same_iff_eq hleft hright, cstrNpos]
    exact iff_of_false (by omega) (not_not.mpr ht)
  · exact iff_of_true (.of_eq (cstrRfind_eq h.spans t ht)
      (cstrRfindCstr_eq h.spans hsub.spans ht)) ht

/-- A needle gives the same in both of its forms, also when it is empty, except to the reverse
search: there the forms agree exactly on the other needles. -/
theorem twins_agree (h : s.Holds xs) (hsub : sub.Holds t.bytes) :
    Same (cstrFind s t) (cstrFindCstr s sub) ∧
    (Same (cstrRfind s t) (cstrRfindCstr s sub) ↔ t.bytes ≠ []) ∧
    Same (cstrCountSubstr s t) (cstrCountSubstrCstr s sub) ∧
    Same (cstrRemoveAll s t) (cstrRemoveAllCstr s sub) ∧
    Same (cstrStartsWith s t) (cstrStartsWithCstr s sub) ∧
    Same (cstrEndsWith s t) (cstrEndsWithCstr s sub) := by
  obtain ⟨rest, hmem⟩ := hsub.mem
  refine ⟨?find, rfind_same_iff h hsub, count_same h hsub, removeAll_same h hsub, ?starts, ?ends⟩
  case find =>
    refine .of_eq (find_eq h.spans [0]) ?_
    rw [cstrFindCstr, hmem, hsub.length]
    exact find_eq h.spans (0 :: rest)
  case starts =>
    refine .of_eq (startsWith_eq h.spans [0]) ?_
    rw [cstrStartsWithCstr, hmem, hsub.length]
    exact startsWith_eq h.spans (0 :: rest)
  case ends =>
    refine .of_eq (endsWith_eq h.spans [0]) ?_
    rw [cstrEndsWithCstr, hmem, hsub.length]
    exact endsWith_eq h.spans (0 :: rest)

/-- The inline string `ab`, and the empty one. -/
def abCstr : Cstr := ⟨none, 2, 0, [97, 98] ++ 0 :: List.replicate 13 0⟩
def emptyCstr : Cstr := ⟨none, 0, 0, 0 :: List.replicate 15 0⟩

theorem abCstr_holds : abCstr.Holds [97, 98] := ⟨⟨rfl, rfl⟩, rfl, List.replicate 13 0, rfl⟩
theorem emptyCstr_holds : emptyCstr.Holds [] := ⟨⟨rfl, rfl⟩, rfl, List.replicate 15 0, rfl⟩

theorem twins_agree_ab : Same (cstrRfind abCstr ⟨⟨[97, 98], by decide⟩, by decide⟩)
    (cstrRfindCstr abCstr abCstr) :=
  (twins_agree abCstr_holds abCstr_holds).2.1.mpr (by decide)

/-- `cstr_rfind(s, "")` is `-1` and `cstr_rfind_cstr` of an empty string is 2 for the string
`ab`. -/
theorem rfind_empty_differs : abCstr.Holds [97, 98] ∧ emptyCstr.Holds emptyText.bytes ∧
    cstrRfind abCstr emptyText = some (-1) ∧ cstrRfindCstr abCstr emptyCstr = some 2 :=
  ⟨abCstr_holds, emptyCstr_holds, rfl, rfl⟩

end Solidc.Text
