import Solidc.Text.Splitting

/-! # The first and the last occurrence

The searches of `cstr.c`, `str.h` and `str_slice.h` that return a position. The blocks of the
results are the ranges that a search is given and nothing else, so a value also means that no byte
outside of them was read.

* `rfindLoop_eq` — restarting the search behind each occurrence ends at the last one;
* `search_first_last` — the searches find the first occurrence, the reverse ones the last one, up
  to what an `int` can say.
-/

namespace Solidc.Text

open CLib

/-! ## The code -/

def cstrNpos : Int := -1

/-- `(size_t)-1`. -/
def sizeMax : Nat := 2 ^ 64 - 1

/-- The value of `(int)n`. -/
def toInt (n : Nat) : Int :=
  if n % 2 ^ 32 < 2 ^ 31 then (n % 2 ^ 32 : Nat) else (n % 2 ^ 32 : Nat) - 2 ^ 32

/-- `found ? (int)(found - s->data) : CSTR_NPOS`. -/
def foundIndex (found : Option Nat) : Int := found.elim cstrNpos toInt

def cstrFind (s : Cstr) (substr : CText) : Option Int :=
  (cstrSearch s.mem 0 s.length substr.mem substr.len).map foundIndex

def cstrFindCstr (s sub : Cstr) : Option Int :=
  (cstrSearch s.mem 0 s.length sub.mem sub.length).map foundIndex

/-- The loop of the reverse searches; the first argument bounds its rounds. -/
def rfindLoop (search : Search) (hlen nlen : Nat) : Nat → Nat → Option Nat → Option (Option Nat)
  | 0, _, _ => none
  | fuel + 1, p, last => do
    match ← search p (subSize hlen p) with
    | none => some last
    | some q =>
      let p := q + 1
      if toSize (p + nlen) > hlen then some (some q) else rfindLoop search hlen nlen fuel p (some q)

def cstrRfind (s : Cstr) (substr : CText) : Option Int :=
  let nlen := substr.len
  if nlen = 0 ∨ nlen > s.length then some cstrNpos
  else
    (rfindLoop (fun p rem => cstrSearch s.mem p rem substr.mem nlen) s.length nlen
      (s.length + 1) 0 none).map foundIndex

def cstrRfindCstr (s sub : Cstr) : Option Int :=
  if sub.length = 0 then some (toInt s.length)
  else if sub.length > s.length then some cstrNpos
  else
    (rfindLoop (fun p rem => cstrSearch s.mem p rem sub.mem sub.length) s.length sub.length
      (s.length + 1) 0 none).map foundIndex

def strRfind (str substr : Option CText) : Option Int :=
  match str, substr with
  | some str, some substr =>
    let hlen := str.len
    let nlen := substr.len
    if nlen = 0 ∨ nlen > hlen then some (-1)
    else
      (rfindLoop (fun p rem => strSearchImpl str.mem p rem substr.mem nlen) hlen nlen
        (hlen + 1) 0 none).map (·.elim (-1) toInt)
  | _, _ => some (-1)

/-- The loop of `ss_find` over the places from `i` on, of which `k` are left. -/
def ssFindLoop (haystack needle : List UInt8) : Nat → Nat → Option Nat
  | 0, _ => some sizeMax
  | k + 1, i => do
    if ← memcmpEq haystack i needle 0 needle.length then some i
    else ssFindLoop haystack needle k (i + 1)

/-- `ss_find` on the bytes of two slices. -/
def ssFind (haystack needle : List UInt8) : Option Nat :=
  if needle.length = 0 then some 0
  else if needle.length > haystack.length then some sizeMax
  else ssFindLoop haystack needle (haystack.length - needle.length + 1) 0

/-! ## Positions -/

/-- A position, or `-1`. -/
def position (found : Option Nat) : Int := found.elim (-1) (fun i => (i : Int))

theorem toInt_eq {n : Nat} (h : n < 2 ^ 31) : toInt n = n := by
  rw [toInt, Nat.mod_eq_of_lt (by omega), if_pos h]

/-- An `int` has the place of what starts within `2 ^ 31` bytes, and of nothing else. -/
theorem foundIndex_eq_iff (found : Option Nat) :
    foundIndex found = position found ↔ ∀ i ∈ found, i < 2 ^ 31 := by
  cases found with
  | none => exact iff_of_true rfl nofun
  | some n =>
    have hmem : (∀ i ∈ some n, i < 2 ^ 31) ↔ n < 2 ^ 31 := by simp
    rw [hmem, foundIndex, position, Option.elim_some, Option.elim_some]
    constructor
    · intro h
      unfold toInt at h
      split at h <;> omega
    · exact toInt_eq

/-! ## The last occurrence -/

section Last

variable {search : Search} {d xs : List UInt8}

theorem lastSub_of_short (h : xs.length < d.length) : lastSub d xs = none := by
  refine lastSub_eq_none_iff.mpr fun j _ hpre => ?_
  have := hpre.length_le
  rw [List.length_drop] at this
  omega

/-- Restarting behind an occurrence until there is no more of them. -/
theorem rfindLoop_eq (hfind : Finds search d xs) (hd : d ≠ []) (hsize : xs.length < 2 ^ 63)
    (hshort : d.length ≤ xs.length) {fuel p : Nat} (last : Option Nat) (hp : p ≤ xs.length)
    (hfuel : xs.length - p < fuel) :
    rfindLoop search xs.length d.length fuel p last =
      some (((lastSub d (xs.drop p)).map (p + ·)).or last) := by
  have hpos := List.length_pos_iff.mpr hd
  induction fuel generalizing p last with
  | zero => exact absurd hfuel (Nat.not_lt_zero _)
  | succ fuel ih =>
    rw [rfindLoop, subSize_eq hp, hfind p hp]
    cases hfirst : findSub d (xs.drop p) with
    | none =>
      rw [lastSub_eq_none_iff_findSub.mpr hfirst]
      rfl
    | some i =>
      have hfits := findSub_fits hfirst
      rw [List.length_drop] at hfits
      have hsum : toSize (p + i + 1 + d.length) = p + i + 1 + d.length :=
        Nat.mod_eq_of_lt (by omega)
      rw [lastSub_of_findSub hd hfirst, List.drop_drop, ← Nat.add_assoc]
      simp only [Option.map_some, Option.bind_eq_bind, Option.bind_some, hsum, Option.some_or]
      split
      case isTrue hend =>
        -- the loop leaves early when the rest is too short for another occurrence
        rw [lastSub_of_short (by rw [List.length_drop]; omega), Option.map_none, Option.getD_none]
      case isFalse hmore =>
        rw [ih (some (p + i)) (by omega) (by omega)]
        cases lastSub d (xs.drop (p + i + 1)) with
        | none => rfl
        | some k =>
          simp only [Option.map_some, Option.some_or, Option.getD_some]
          congr 2
          omega

/-- From the beginning, with a search in a block that starts with the bytes. -/
theorem rfindLoop_start (hd : d ≠ []) (hsize : xs.length < 2 ^ 63) (hshort : d.length ≤ xs.length)
    (rest post : List UInt8) :
    rfindLoop (fun p rem => searchImpl (xs ++ rest) p rem (d ++ post) d.length) xs.length d.length
      (xs.length + 1) 0 none = some (lastSub d xs) := by
  have hrun := rfindLoop_eq (searchImpl_finds hd rest post) hd hsize hshort none (Nat.zero_le _)
    (Nat.lt_succ_self xs.length : xs.length - 0 < xs.length + 1)
  rw [List.drop_zero, Option.or_none] at hrun
  rw [hrun]
  simp

end Last

/-! ## The results -/

/-- The bytes that a function may read through the string; there need be nothing behind them. -/
structure Cstr.Spans (s : Cstr) (xs : List UInt8) : Prop where
  length : s.length = xs.length
  mem : ∃ rest, s.mem = xs ++ rest
  short : xs.length < cstrMaxLen

variable {s sub : Cstr} {xs d : List UInt8}

theorem Cstr.Holds.spans (h : s.Holds xs) : s.Spans xs := by
  obtain ⟨rest, hmem⟩ := h.mem
  exact ⟨h.length, ⟨0 :: rest, hmem⟩, h.length_lt_max⟩

/-- The search over a whole range finds the first occurrence, also of nothing. -/
theorem searchImpl_whole (rest post : List UInt8) :
    searchImpl (xs ++ rest) 0 xs.length (d ++ post) d.length = some (findSub d xs) := by
  by_cases hd : d = []
  · subst hd
    have hzero : findSub [] xs = some 0 :=
      findSub_eq_some_iff.mpr ⟨Nat.zero_le _, List.nil_prefix, nofun⟩
    rw [hzero]
    rfl
  · rw [searchImpl_eq hd (by rw [List.length_append]; omega), List.drop_zero, List.take_left]
    simp

theorem ssFindLoop_eq {k i : Nat} (hi : i + d.length + k = xs.length + 1) (hd : d ≠ []) :
    ssFindLoop xs d k i = some (((findSub d (xs.drop i)).map (i + ·)).getD sizeMax) := by
  have hpos := List.length_pos_iff.mpr hd
  induction k generalizing i with
  | zero =>
    have hnone : findSub d (xs.drop i) = none := by
      refine findSub_eq_none_iff.mpr fun j _ hpre => ?_
      have := hpre.length_le
      rw [List.drop_drop, List.length_drop] at this
      omega
    rw [hnone]
    rfl
  | succ k ih =>
    have hcmp := memcmpEq_eq (p := xs) (q := d) (i := i) (j := 0) (k := d.length) (by omega)
      (by omega)
    have hiff : (xs.drop i).take d.length = (d.drop 0).take d.length ↔ d <+: xs.drop i := by
      rw [List.drop_zero, List.take_length, List.prefix_iff_eq_take, eq_comm]
    rw [ssFindLoop, hcmp]
    simp only [Option.bind_eq_bind, Option.bind_some, decide_eq_true_eq, hiff]
    split
    case isTrue hpre =>
      have hzero : findSub d (xs.drop i) = some 0 :=
        findSub_eq_some_iff.mpr ⟨Nat.zero_le _, hpre, fun j hj => absurd hj (Nat.not_lt_zero j)⟩
      rw [hzero]
      rfl
    case isFalse hpre =>
      have hskip : findSub d (xs.drop i) = (findSub d ((xs.drop i).drop 1)).map (· + 1) := by
        refine findSub_drop (by rw [List.length_drop]; omega) fun j hj => ?_
        obtain rfl : j = 0 := by omega
        exact hpre
      rw [ih (by omega), hskip, List.drop_drop, Option.map_map]
      congr 2
      refine congrArg (Option.map · _) (funext fun j => ?_)
      change i + 1 + j = i + (j + 1)
      omega

theorem ssFind_eq (xs d : List UInt8) : ssFind xs d = some ((findSub d xs).getD sizeMax) := by
  unfold ssFind
  split
  case isTrue hzero =>
    obtain rfl := List.length_eq_zero_iff.mp hzero
    rw [findSub_eq_some_iff.mpr ⟨Nat.zero_le _, List.nil_prefix,
      fun j hj => absurd hj (Nat.not_lt_zero j)⟩]
    rfl
  case isFalse hne =>
    split
    case isTrue hshort =>
      have hnone : findSub d xs = none :=
        lastSub_eq_none_iff_findSub.mp (lastSub_of_short hshort)
      rw [hnone]
      rfl
    case isFalse hfits =>
      rw [ssFindLoop_eq (by omega) (by rintro rfl; exact hne rfl), List.drop_zero]
      simp

/-- Where a last occurrence is, the haystack is longer. -/
theorem lastSub_lt (hd : d ≠ []) {i : Nat} (h : lastSub d xs = some i) : i < xs.length := by
  have hpos := List.length_pos_iff.mpr hd
  obtain ⟨-, hpre, -⟩ := lastSub_eq_some_iff.mp h
  have := hpre.length_le
  rw [List.length_drop] at this
  omega

/-- The index of the last occurrence is an `int` in every `cstr`. -/
theorem Cstr.Spans.foundIndex_lastSub (h : s.Spans xs) (hd : d ≠ []) :
    foundIndex (lastSub d xs) = position (lastSub d xs) := by
  refine (foundIndex_eq_iff _).mpr fun i hi => ?_
  have hlt := lastSub_lt hd hi
  have hshort := h.short
  unfold cstrMaxLen at hshort
  omega

theorem cstrRfind_eq (h : s.Spans xs) (t : CText) (ht : t.bytes ≠ []) :
    cstrRfind s t = some (position (lastSub t.bytes xs)) := by
  obtain ⟨rest, hmem⟩ := h.mem
  have hshort := h.short
  unfold cstrMaxLen at hshort
  have hne : t.len ≠ 0 := by simpa [CString.len] using ht
  rw [cstrRfind, h.length, hmem]
  split
  case isTrue hlong =>
    rw [lastSub_of_short (hlong.resolve_left hne)]
    rfl
  case isFalse hfits =>
    have hsize : xs.length < 2 ^ 63 := by omega
    rw [not_or] at hfits
    have hrun := rfindLoop_start ht hsize (not_lt.mp hfits.2) rest [0]
    have hall := congrArg (Option.map foundIndex) hrun
    rw [Option.map_some, h.foundIndex_lastSub ht] at hall
    exact hall

theorem cstrRfindCstr_eq (h : s.Spans xs) (hsub : sub.Spans d) (hd : d ≠ []) :
    cstrRfindCstr s sub = some (position (lastSub d xs)) := by
  obtain ⟨rest, hmem⟩ := h.mem
  obtain ⟨post, hpost⟩ := hsub.mem
  have hshort := h.short
  unfold cstrMaxLen at hshort
  rw [cstrRfindCstr, h.length, hmem, hsub.length, hpost,
    if_neg (List.length_pos_iff.mpr hd).ne']
  split
  case isTrue hlong =>
    rw [lastSub_of_short hlong]
    rfl
  case isFalse hfits =>
    have hall := congrArg (Option.map foundIndex)
      (rfindLoop_start hd (by omega : xs.length < 2 ^ 63) (not_lt.mp hfits) rest post)
    rw [Option.map_some, h.foundIndex_lastSub hd] at hall
    exact hall

theorem strRfind_eq (str t : CText) (ht : t.bytes ≠ []) :
    strRfind (some str) (some t) = some (foundIndex (lastSub t.bytes str.bytes)) := by
  have hne : t.len ≠ 0 := by simpa [CString.len] using ht
  rw [strRfind]
  split
  case isTrue hlong =>
    rw [lastSub_of_short (hlong.resolve_left hne)]
    rfl
  case isFalse hfits =>
    rw [not_or] at hfits
    have hrun := rfindLoop_start ht str.fits (not_lt.mp hfits.2) [0] [0]
    exact congrArg (Option.map foundIndex) hrun

/-- For all bytes `xs` and `d`: the searches find the first occurrence, and those of `cstr.c` that
go on behind it the last one. `str_rfind` finds that one, too, but returns its place exactly when it
starts within `2 ^ 31` bytes. -/
theorem search_first_last (hsize : xs.length < 2 ^ 64) :
    cstrSearch xs 0 xs.length d d.length = some (findSub d xs) ∧
    strSearchImpl xs 0 xs.length d d.length = some (findSub d xs) ∧
    (∃ i, ssFind xs d = some i ∧ findSub d xs = if i = sizeMax then none else some i) ∧
    (d ≠ [] →
      (∀ s : Cstr, s.Spans xs →
        (∀ sub : Cstr, sub.Spans d → cstrRfindCstr s sub = some (position (lastSub d xs))) ∧
        ∀ t : CText, t.bytes = d → cstrRfind s t = some (position (lastSub d xs))) ∧
      ∀ str t : CText, str.bytes = xs → t.bytes = d →
        (strRfind (some str) (some t) = some (position (lastSub d xs)) ↔
          ∀ i ∈ lastSub d xs, i < 2 ^ 31)) := by
  have hsearch : searchImpl xs 0 xs.length d d.length = some (findSub d xs) := by
    have hwhole := @searchImpl_whole xs d [] []
    rwa [List.append_nil, List.append_nil] at hwhole
  refine ⟨hsearch, hsearch, ⟨_, ssFind_eq xs d, ?_⟩, fun hd => ⟨fun s hs => ⟨?_, ?_⟩, ?_⟩⟩
  · cases hfirst : findSub d xs with
    | none => rfl
    | some i =>
      -- an occurrence of nothing is at the beginning
      have hi : i ≠ sizeMax := by
        obtain ⟨hle, -, hbefore⟩ := findSub_eq_some_iff.mp hfirst
        have hfits := findSub_fits hfirst
        unfold sizeMax
        rintro rfl
        refine hbefore 0 (by decide) ?_
        rw [List.length_eq_zero_iff.mp (by omega : d.length = 0)]
        exact List.nil_prefix
      rw [Option.getD_some, if_neg hi]
  · exact fun sub hsub => cstrRfindCstr_eq hs hsub hd
  · rintro t rfl
    exact cstrRfind_eq hs t hd
  · rintro str t rfl rfl
    rw [strRfind_eq str t hd, Option.some.injEq]
    exact foundIndex_eq_iff _

/-- `aa` in `aaa` is first at 0 and last at 1. -/
theorem search_first_last_overlapping : ∃ str t : CText, str.bytes = [97, 97, 97] ∧
    t.bytes = [97, 97] ∧ cstrSearch str.bytes 0 3 t.bytes 2 = some (some 0) ∧
    strRfind (some str) (some t) = some 1 := by
  obtain ⟨hsearch, -, -, hrest⟩ := @search_first_last [97, 97, 97] [97, 97] (by decide)
  obtain ⟨-, hlast⟩ := hrest (by decide)
  have hone : lastSub [97, 97] [97, 97, (97 : UInt8)] = some 1 := by decide
  have hzero : findSub [97, 97] [97, 97, (97 : UInt8)] = some 0 := by decide
  have hrfind := (hlast ⟨⟨[97, 97, 97], by decide⟩, by decide⟩ ⟨⟨[97, 97], by decide⟩, by decide⟩
    rfl rfl).mpr (by rw [hone]; decide)
  rw [hone] at hrfind
  rw [hzero] at hsearch
  exact ⟨_, _, rfl, rfl, hsearch, hrfind⟩

theorem lastSub_concat (a : UInt8) (l : List UInt8) : lastSub [a] (l ++ [a]) = some l.length := by
  have hstands : [a] <+: (l ++ [a]).drop l.length := by simp
  refine lastSub_eq_some_iff.mpr ⟨by simp, hstands, fun j hj hlt hpre => ?_⟩
  have := hpre.length_le
  simp only [List.length_drop, List.length_append, List.length_singleton] at this hj
  omega

/-- `2 ^ 31` bytes `a` and a `b`: the `b` is at `2 ^ 31`, which `str_rfind` returns as `-2 ^ 31`. -/
theorem strRfind_wraps : ∃ str t : CText, str.bytes = List.replicate (2 ^ 31) 97 ++ [98] ∧
    t.bytes = [98] ∧ lastSub t.bytes str.bytes = some (2 ^ 31) ∧
    strRfind (some str) (some t) = some (-2 ^ 31) ∧
    position (lastSub t.bytes str.bytes) = 2 ^ 31 := by
  have hfree : (0 : UInt8) ∉ List.replicate (2 ^ 31) 97 ++ [98] := by
    rw [List.mem_append, List.mem_replicate, List.mem_singleton]
    decide
  have hfits : (List.replicate (2 ^ 31) (97 : UInt8) ++ [98]).length < 2 ^ 63 := by
    rw [List.length_append, List.length_replicate]
    decide
  have hlast := lastSub_concat 98 (List.replicate (2 ^ 31) 97)
  rw [List.length_replicate] at hlast
  have hfind := strRfind_eq ⟨⟨_, hfree⟩, hfits⟩ ⟨⟨[98], by decide⟩, by decide⟩ (by simp)
  rw [hlast] at hfind
  exact ⟨⟨⟨_, hfree⟩, hfits⟩, ⟨⟨[98], by decide⟩, by decide⟩, rfl, rfl, hlast, hfind, by
    rw [hlast]; rfl⟩

end Solidc.Text
