import Solidc.Text.Splitting
import Solidc.Unicode.Texts

/-! # Parts of a string

`utf8_substr`, `cstr_substr` and `str_substr` copy a part of a string into a new one. Each of
them shortens the part at the end of the string, with a sum, a difference of 32 bits and a
difference of `size_t`. `malloc` says what an allocation of each size returns.

* `copyOut_part` — the copy of a part that is shortened at the end of the string;
* `copyOut_ne` — a part that reaches further is not copied;
* `utf8Substr_eq`, `utf8Substr_ne`, `cstrSubstr_yields`, `strSubstr_eq` — the functions;
* `substrs_agree_iff` — the three agree exactly when the sum of the first one does not wrap.
-/

namespace Solidc.Text

open CLib

/-! ## The code -/

/-- The common end of `utf8_substr` and `str_substr`: `copy` bytes from `mem + start` and a NUL in
a new block. -/
def copyOut (mem : List UInt8) (start copy : Nat) (malloc : Nat → Alloc) :
    Option (Option (List UInt8)) :=
  match malloc (toSize (copy + 1)) with
  | none => some none
  | some junk => do
    let bytes ← load mem start copy
    let r ← store (extent junk (toSize (copy + 1))) 0 bytes
    let r ← store r copy [0]
    some (some r)

def utf8Substr (s : Unicode.Utf8String) (index utf8ByteLen : Nat) (malloc : Nat → Alloc) :
    Option (Option (List UInt8)) :=
  if index ≥ s.length ∨ utf8ByteLen = 0 then some none
  else
    let utf8ByteLen :=
      if toSize (index + utf8ByteLen) > s.length then s.length - index else utf8ByteLen
    copyOut s.data index utf8ByteLen malloc

def cstrSubstr (s : Cstr) (start length : Nat) (struct alloc : Alloc) : Option (Option Cstr) :=
  let slen := s.length
  if start > slen then some none
  else
    let avail := slen - toU32 start
    let copy := if length > avail then avail else toU32 length
    cstrNewFrom s.mem start copy struct alloc

def strSubstr (str : Option CText) (start length : Nat) (malloc : Nat → Alloc) :
    Option (Option (List UInt8)) :=
  match str with
  | none => some none
  | some str =>
    let len := str.len
    if start > len then some none
    else
      let avail := len - start
      let copy := if length > avail then avail else length
      copyOut str.mem start copy malloc

/-! ## The property -/

/-- The bytes from `index` on, `n` of them or as many as there are. -/
def partOf (xs : List UInt8) (index n : Nat) : List UInt8 := (xs.drop index).take n

/-- On any string object with the text, each function gives the part and a NUL behind it, and
reads and writes within its blocks. -/
structure SubstrsAgree (text : CText) (index n : Nat) (malloc : Nat → Alloc) : Prop where
  utf8 : ∀ s : Unicode.Utf8String, Unicode.Holds s text.bytes →
    utf8Substr s index n malloc = some (some (partOf text.bytes index n ++ [0]))
  cstr : ∀ s : Cstr, s.Holds text.bytes → ∀ struct alloc : Nat → UInt8,
    Yields (cstrSubstr s index n (some struct) (some alloc)) (partOf text.bytes index n)
  str : strSubstr (some text) index n malloc = some (some (partOf text.bytes index n ++ [0]))

/-! ## Copies -/

variable {text : CText} {xs l mem rest : List UInt8} {index n start copy : Nat}
  {malloc : Nat → Alloc}

/-- A part that is shortened at the end of the text is the same part. -/
theorem partOf_min (xs : List UInt8) (index n : Nat) :
    partOf xs index (min n (xs.length - index)) = partOf xs index n := by
  rw [partOf, partOf, ← List.length_drop, ← List.take_take, List.take_length]

theorem copyOut_eq (hload : load mem start copy = some l) (hlen : l.length = copy)
    (hword : copy + 1 < 2 ^ 64) (hgrant : malloc (copy + 1) ≠ none) :
    copyOut mem start copy malloc = some (some (l ++ [0])) := by
  obtain ⟨junk, hjunk⟩ := Option.ne_none_iff_exists'.mp hgrant
  have hsize : toSize (copy + 1) = copy + 1 := Nat.mod_eq_of_lt hword
  have hfill := store_last junk l 0
  rw [hlen] at hfill
  rw [copyOut, hsize, hjunk]
  dsimp only
  rw [hload, Option.bind_eq_bind, Option.bind_some, ← Option.bind_assoc, hfill]
  rfl

/-- The copy of a part that is shortened at the end of the string. -/
theorem copyOut_part (hindex : index < xs.length) (hfits : xs.length < 2 ^ 63)
    (hgrant : ∀ size ≤ xs.length + 1, malloc size ≠ none) :
    copyOut (xs ++ 0 :: rest) index (min n (xs.length - index)) malloc =
      some (some (partOf xs index n ++ [0])) := by
  have hlen : (partOf xs index n).length = min n (xs.length - index) := by
    rw [partOf, List.length_take, List.length_drop]
  have hload : load (xs ++ 0 :: rest) index (min n (xs.length - index)) =
      some (partOf xs index (min n (xs.length - index))) := load_left (by omega)
  rw [partOf_min] at hload
  exact copyOut_eq hload hlen (by omega) (hgrant _ (by omega))

/-- A part that reaches outside of the string is not returned. -/
theorem copyOut_ne (hout : mem.length < start + copy) (block : List UInt8) :
    copyOut mem start copy malloc ≠ some (some block) := by
  intro h
  have hload : load mem start copy = none := if_neg (Nat.not_le_of_lt hout)
  rw [copyOut] at h
  cases hmalloc : malloc (toSize (copy + 1)) with
  | none =>
    rw [hmalloc] at h
    cases h
  | some junk =>
    rw [hmalloc, hload] at h
    cases h

/-! ## The three functions -/

theorem utf8Substr_eq {s : Unicode.Utf8String} (h : Unicode.Holds s text.bytes)
    (hindex : index < text.len) (hn : 0 < n) (hsum : index + n < 2 ^ 64)
    (hgrant : ∀ size ≤ text.len + 1, malloc size ≠ none) :
    utf8Substr s index n malloc = some (some (partOf text.bytes index n ++ [0])) := by
  obtain ⟨rest, hdata⟩ := h.data
  have hlen : s.length = text.bytes.length := h.length
  unfold CString.len at hindex hgrant
  have hcopy : (if toSize (index + n) > s.length then s.length - index else n) =
      min n (text.bytes.length - index) := by
    rw [show toSize (index + n) = index + n from Nat.mod_eq_of_lt hsum, hlen]
    split <;> omega
  rw [utf8Substr, if_neg (by omega), hcopy, hdata]
  exact copyOut_part hindex text.fits hgrant

/-- A sum that wraps is smaller than the length, and nothing is shortened. -/
theorem utf8Substr_ne {s : Unicode.Utf8String} (hdata : s.data = text.bytes ++ [0])
    (hlen : s.length = text.len) (hindex : index < text.len) (hn : 0 < n) (hword : n < 2 ^ 64)
    (hwraps : 2 ^ 64 ≤ index + n) (block : List UInt8) :
    utf8Substr s index n malloc ≠ some (some block) := by
  have hfits := text.fits
  unfold CString.len at hindex hlen
  have hsum : toSize (index + n) = index + n - 2 ^ 64 := by
    rw [toSize, Nat.mod_eq_sub_mod hwraps, Nat.mod_eq_of_lt (by omega)]
  -- the reduced sum is below the index, so the length is kept and the copy ends outside the block
  rw [utf8Substr, if_neg (by omega), if_neg (by omega)]
  refine copyOut_ne ?_ block
  rw [hdata, List.length_append, List.length_singleton]
  omega

theorem cstrSubstr_yields {s : Cstr} (h : s.Holds xs) (hindex : index < xs.length)
    (struct alloc : Nat → UInt8) :
    Yields (cstrSubstr s index n (some struct) (some alloc)) (partOf xs index n) := by
  have hmax := h.length_lt_max
  have hshort := cstrMaxLen_lt
  -- the length is below 2^31, so neither conversion to 32 bits that is used loses anything
  have hsmall : toU32 index = index := Nat.mod_eq_of_lt (by omega)
  have hcopy : (if n > xs.length - index then xs.length - index else toU32 n) =
      min n (xs.length - index) := by
    split
    case isTrue => omega
    case isFalse hn =>
      rw [show toU32 n = n from Nat.mod_eq_of_lt (by omega)]
      omega
  have hpart := h.part index (min n (xs.length - index)) (by omega) struct alloc
  rw [cstrSubstr, h.length, if_neg (by omega), hsmall]
  dsimp only
  rw [hcopy, ← partOf_min]
  exact hpart

theorem strSubstr_eq (hindex : index < text.len)
    (hgrant : ∀ size ≤ text.len + 1, malloc size ≠ none) :
    strSubstr (some text) index n malloc = some (some (partOf text.bytes index n ++ [0])) := by
  unfold CString.len at hindex hgrant
  have hcopy : (if n > text.bytes.length - index then text.bytes.length - index else n) =
      min n (text.bytes.length - index) := by
    split <;> omega
  unfold strSubstr CString.len
  dsimp only
  rw [if_neg (by omega), hcopy]
  exact copyOut_part hindex text.fits hgrant

/-! ## Agreement -/

/-- A string object with the text. -/
theorem exists_holds (text : CText) :
    ∃ s : Unicode.Utf8String, s.data = text.bytes ++ [0] ∧ Unicode.Holds s text.bytes := by
  have hfits := text.fits
  have hcap : text.len ≤ Unicode.maxCapacity := by
    unfold Unicode.maxCapacity CString.len
    omega
  exact ⟨⟨text.bytes ++ [0], text.len, Unicode.leads text.bytes, text.len⟩, rfl,
    ⟨⟨[], rfl⟩, text.nulFree, rfl, Nat.le_of_eq List.length_append, hcap⟩⟩

/-- For an index within the text, all three give the part wherever the sum of `utf8_substr` is
that of the numbers. Where it wraps, this one reads past the end. -/
theorem substrs_agree_iff (hindex : index < text.len) (hn : 0 < n) (hword : n < 2 ^ 64)
    (hgrant : ∀ size ≤ text.len + 1, malloc size ≠ none) :
    SubstrsAgree text index n malloc ↔ index + n < 2 ^ 64 := by
  constructor
  case mp =>
    intro hagree
    by_contra hwraps
    obtain ⟨s, hdata, hs⟩ := exists_holds text
    exact utf8Substr_ne hdata hs.length hindex hn hword (Nat.le_of_not_lt hwraps) _
      (hagree.utf8 s hs)
  case mpr =>
    intro hsum
    exact ⟨fun s hs => utf8Substr_eq hs hindex hn hsum hgrant,
      fun s hs struct alloc => cstrSubstr_yields hs hindex struct alloc,
      strSubstr_eq hindex hgrant⟩

theorem substrs_agree_middle :
    SubstrsAgree ⟨⟨[97, 98, 99], by decide⟩, by decide⟩ 1 1 (fun _ => some fun _ => 0) :=
  (substrs_agree_iff (by decide) (by decide) (by decide) fun _ _ => Option.some_ne_none _).mpr
    (by decide)

/-- The rest of `"abc"` from its second byte on, asked for with the largest `size_t`: the block has
no byte, and `memcpy` is called with that size. -/
theorem substr_rest_overruns :
    utf8Substr ⟨[97, 98, 99, 0], 3, 3, 3⟩ 1 (2 ^ 64 - 1) (fun _ => some fun _ => 0) = none ∧
    ¬ SubstrsAgree ⟨⟨[97, 98, 99], by decide⟩, by decide⟩ 1 (2 ^ 64 - 1)
      (fun _ => some fun _ => 0) := by
  have hrun : utf8Substr ⟨[97, 98, 99, 0], 3, 3, 3⟩ 1 (2 ^ 64 - 1) (fun _ => some fun _ => 0) =
      none := rfl
  refine ⟨hrun, fun hagree => ?_⟩
  have hpart := hagree.utf8 ⟨[97, 98, 99, 0], 3, 3, 3⟩
    ⟨⟨[], rfl⟩, by decide, rfl, by decide, by decide⟩
  rw [hrun] at hpart
  cases hpart

end Solidc.Text
