import Solidc.Text.Splitting

/-! # Repeated and padded strings

`str_repeat`, `str_pad_left`, `str_pad_right` and `str_center` compute the size of the result
with `size_t`, allocate it and fill it piece by piece. `malloc` says what an allocation of each
size returns; a function that writes outside of its block has no value.

* `repeatLoop_eq`, `repeatLoop_none` — the loop of `str_repeat` writes the copies one behind the
  other, as far as the block reaches;
* `padBlock_iff`, `strRepeat_iff`, `strPad_iff` — when the functions give NULL or the string;
* `filled_iff` — the four of them: when the size of the result and its NUL is a `size_t`, or the
  size that is asked for instead is refused.
-/

namespace Solidc.Text

open CLib

/-! ## The code -/

/-- The remaining `n` copies, from number `i` on. -/
def repeatLoop (str : CText) (slen : Nat) : Nat → Nat → List UInt8 → Option (List UInt8)
  | 0, _, r => some r
  | n + 1, i, r => do
    let bytes ← load str.mem 0 slen
    let r ← store r (toSize (i * slen)) bytes
    repeatLoop str slen n (i + 1) r

def strRepeat (str : Option CText) (n : Nat) (malloc : Nat → Alloc) :
    Option (Option (List UInt8)) :=
  match str with
  | none => some none
  | some str =>
    let slen := str.len
    let result := toSize (slen * n)
    match malloc (toSize (result + 1)) with
    | none => some none
    | some junk => do
      let r ← repeatLoop str slen n 0 (extent junk (toSize (result + 1)))
      let r ← store r result [0]
      some (some r)

/-- A new block of `width` bytes and a NUL, filled with the pieces. -/
def padBlock (width : Nat) (pieces : List (List UInt8)) (malloc : Nat → Alloc) :
    Option (Option (List UInt8)) :=
  match malloc (toSize (width + 1)) with
  | none => some none
  | some junk => do
    let r ← storeAll (extent junk (toSize (width + 1))) 0 pieces
    let r ← store r width [0]
    some (some r)

/-- The common form of the three functions; `pieces` are the `memset` and `memcpy` calls for the
number of missing bytes and the bytes of the string. -/
def strPad (pieces : Nat → List UInt8 → List (List UInt8)) (str : Option CText) (width : Nat)
    (malloc : Nat → Alloc) : Option (Option (List UInt8)) :=
  match str with
  | none => some none
  | some str =>
    let len := str.len
    if len ≥ width then strDup str (malloc (toSize (len + 1)))
    else padBlock width (pieces (width - len) str.bytes) malloc

def strPadLeft (str : Option CText) (width : Nat) (padChar : UInt8) (malloc : Nat → Alloc) :
    Option (Option (List UInt8)) :=
  strPad (fun pad bytes => [List.replicate pad padChar, bytes]) str width malloc

def strPadRight (str : Option CText) (width : Nat) (padChar : UInt8) (malloc : Nat → Alloc) :
    Option (Option (List UInt8)) :=
  strPad (fun pad bytes => [bytes, List.replicate pad padChar]) str width malloc

def strCenter (str : Option CText) (width : Nat) (padChar : UInt8) (malloc : Nat → Alloc) :
    Option (Option (List UInt8)) :=
  strPad (fun totalPad bytes =>
    let leftPad := totalPad / 2
    let rightPad := totalPad - leftPad
    [List.replicate leftPad padChar, bytes, List.replicate rightPad padChar]) str width malloc

/-! ## The property -/

/-- A call on a string. -/
inductive Filling where
  | repeated (n : Nat)
  | padLeft (width : Nat) (padChar : UInt8)
  | padRight (width : Nat) (padChar : UInt8)
  | center (width : Nat) (padChar : UInt8)

def Filling.run (text : CText) (malloc : Nat → Alloc) : Filling → Option (Option (List UInt8))
  | repeated n => strRepeat (some text) n malloc
  | padLeft width padChar => strPadLeft (some text) width padChar malloc
  | padRight width padChar => strPadRight (some text) width padChar malloc
  | center width padChar => strCenter (some text) width padChar malloc

/-- The exact string, with numbers that do not wrap; the odd byte of `center` stands on the
right. -/
def Filling.exact (xs : List UInt8) : Filling → List UInt8
  | repeated n => (List.replicate n xs).flatten
  | padLeft width padChar => List.replicate (width - xs.length) padChar ++ xs
  | padRight width padChar => xs ++ List.replicate (width - xs.length) padChar
  | center width padChar => List.replicate ((width - xs.length) / 2) padChar ++ xs ++
      List.replicate ((width - xs.length + 1) / 2) padChar

/-- NULL, or a block with exactly the bytes and a NUL; nothing was written outside of it. -/
def Filled (r : Option (Option (List UInt8))) (zs : List UInt8) : Prop :=
  r = some none ∨ r = some (some (zs ++ [0]))

/-- The size of the bytes and a NUL is a `size_t`, or `malloc` refuses the one that it wraps to. -/
def Sized (zs : List UInt8) (malloc : Nat → Alloc) : Prop :=
  zs.length + 1 < 2 ^ 64 ∨ malloc (toSize (zs.length + 1)) = none

variable {text : CText} {zs r : List UInt8} {n i width : Nat} {malloc : Nat → Alloc}

/-! ## Blocks -/

theorem not_filled_none : ¬ Filled none zs := by
  rintro (h | h) <;> cases h

/-- A block of the right size is filled by pieces that make up the string. -/
theorem padBlock_iff (pieces : List (List UInt8)) (hlen : pieces.flatten.length = width) :
    Filled (padBlock width pieces malloc) pieces.flatten ↔ Sized pieces.flatten malloc := by
  rw [Sized, hlen, padBlock]
  cases hmalloc : malloc (toSize (width + 1)) with
  | none => exact iff_of_true (Or.inl rfl) (Or.inr rfl)
  | some junk =>
    have hblock := length_extent junk (toSize (width + 1))
    by_cases hsize : width + 1 < 2 ^ 64
    case pos =>
      have hword : toSize (width + 1) = width + 1 := Nat.mod_eq_of_lt hsize
      have hfill := storeAll_last junk pieces 0
      rw [hlen, ← hword] at hfill
      refine iff_of_true (Or.inr ?_) (Or.inl hsize)
      dsimp only
      rw [Option.bind_eq_bind, ← Option.bind_assoc, hfill]
      rfl
    case neg =>
      -- the wrapped size is smaller than what is written
      have hwrap : toSize (width + 1) < width := by
        unfold toSize
        omega
      have hstore : storeAll (extent junk (toSize (width + 1))) 0 pieces = none :=
        storeAll_none (Nat.zero_le _) (by omega)
      simp only [hstore, Option.bind_eq_bind, Option.bind_none]
      exact iff_of_false not_filled_none (by rintro (h | h); exacts [hsize h, by cases h])

/-! ## `str_repeat` -/

theorem load_text (text : CText) : load text.mem 0 text.len = some text.bytes := by
  rw [CString.mem, CString.len, load_eq (by rw [List.length_append]; omega), List.drop_zero,
    List.take_left]

/-- The copies lie one behind the other as long as the products do not wrap. -/
theorem repeatLoop_eq (h : (i + n) * text.len < 2 ^ 64) :
    repeatLoop text text.len n i r = storeAll r (i * text.len) (List.replicate n text.bytes) := by
  induction n generalizing i r with
  | zero => rfl
  | succ n ih =>
    -- the offset is below the end of the last copy, so it is not reduced
    have hle : i * text.len ≤ (i + (n + 1)) * text.len := Nat.mul_le_mul_right _ (by omega)
    have hoff : toSize (i * text.len) = i * text.len := Nat.mod_eq_of_lt (by omega)
    rw [repeatLoop, load_text, List.replicate_succ, storeAll, Option.bind_eq_bind,
      Option.bind_some, hoff]
    congr 1
    funext r
    rw [ih (by rwa [Nat.add_right_comm]), Nat.succ_mul]
    rfl

/-- The first copy that does not fit into the block is written outside of it. -/
theorem repeatLoop_none (hi : i * text.len ≤ r.length) (hr : r.length < 2 ^ 64)
    (hout : r.length < (i + n) * text.len) : repeatLoop text text.len n i r = none := by
  induction n generalizing i r with
  | zero =>
    rw [Nat.add_zero] at hout
    omega
  | succ n ih =>
    -- as long as the copies fit, the offsets are inside the block and have not wrapped
    have hoff : toSize (i * text.len) = i * text.len := Nat.mod_eq_of_lt (by omega)
    rw [repeatLoop, load_text, Option.bind_eq_bind, Option.bind_some, hoff]
    cases hstore : store r (i * text.len) text.bytes with
    | none => rfl
    | some r' =>
      have hlen := length_store hstore
      have hroom : i * text.len + text.bytes.length ≤ r.length := by
        by_contra hno
        rw [store, if_neg hno] at hstore
        cases hstore
      rw [Option.bind_some]
      refine ih ?_ (by omega) ?_
      · rw [Nat.succ_mul, hlen]
        exact hroom
      · rw [Nat.add_right_comm, hlen]
        exact hout

theorem length_repeated (text : CText) (n : Nat) :
    (List.replicate n text.bytes).flatten.length = text.len * n := by
  rw [List.length_flatten, List.map_replicate, List.sum_replicate_nat, Nat.mul_comm]
  rfl

theorem strRepeat_iff (text : CText) (n : Nat) (malloc : Nat → Alloc) :
    Filled (strRepeat (some text) n malloc) (List.replicate n text.bytes).flatten ↔
      Sized (List.replicate n text.bytes).flatten malloc := by
  have hlen := length_repeated text n
  by_cases hword : text.len * n < 2 ^ 64
  case pos =>
    -- a product that does not wrap: the block is that of the pads
    have hproduct : toSize (text.len * n) = text.len * n := Nat.mod_eq_of_lt hword
    rw [← padBlock_iff _ hlen, padBlock, strRepeat, hproduct]
    cases malloc (toSize (text.len * n + 1)) with
    | none => rfl
    | some junk =>
      dsimp only
      rw [repeatLoop_eq (by rwa [Nat.zero_add, Nat.mul_comm]), Nat.zero_mul]
  case neg =>
    -- the block has fewer than 2^64 bytes, and the copies have more
    have hsize : toSize (toSize (text.len * n) + 1) = toSize (text.len * n + 1) := by
      unfold toSize
      omega
    rw [Sized, hlen, strRepeat, hsize]
    cases malloc (toSize (text.len * n + 1)) with
    | none => exact iff_of_true (Or.inl rfl) (Or.inr rfl)
    | some junk =>
      have hblock := length_extent junk (toSize (text.len * n + 1))
      have hbelow : toSize (text.len * n + 1) < 2 ^ 64 := Nat.mod_lt _ (by decide)
      have hout : (extent junk (toSize (text.len * n + 1))).length < (0 + n) * text.len := by
        rw [hblock, Nat.zero_add, Nat.mul_comm n]
        omega
      have hloop : repeatLoop text text.len n 0 (extent junk (toSize (text.len * n + 1))) = none :=
        repeatLoop_none (by omega) (by omega) hout
      dsimp only
      rw [hloop]
      refine iff_of_false not_filled_none ?_
      rintro (h | h)
      · omega
      · cases h

/-! ## The pads -/

theorem strPad_iff (text : CText) (width : Nat) (malloc : Nat → Alloc)
    (pieces : Nat → List UInt8 → List (List UInt8))
    (hlen : ∀ pad, (pieces pad text.bytes).flatten.length = pad + text.len)
    (hzero : (pieces 0 text.bytes).flatten = text.bytes) :
    Filled (strPad pieces (some text) width malloc)
        (pieces (width - text.len) text.bytes).flatten ↔
      Sized (pieces (width - text.len) text.bytes).flatten malloc := by
  rw [strPad]
  split
  case isTrue hle =>
    -- nothing is missing: the copy of a string always has a size
    have hfits := text.fits
    have hsized : Sized text.bytes malloc := Or.inl (by omega)
    rw [Nat.sub_eq_zero_of_le hle, hzero]
    refine iff_of_true ?_ hsized
    cases malloc (toSize (text.len + 1)) with
    | none => exact Or.inl rfl
    | some junk => exact Or.inr (strDup_eq text junk)
  case isFalse hlt =>
    refine padBlock_iff _ ?_
    rw [hlen]
    omega

/-! ## The four functions -/

/-- Each of the functions gives NULL or the exact string, within its block, exactly when the size
of that string and its NUL is a `size_t` or the allocation of the wrapped size fails. -/
theorem filled_iff (op : Filling) (text : CText) (malloc : Nat → Alloc) :
    Filled (op.run text malloc) (op.exact text.bytes) ↔ Sized (op.exact text.bytes) malloc := by
  cases op with
  | repeated n => exact strRepeat_iff text n malloc
  | padLeft width padChar =>
    have hpad := strPad_iff text width malloc
      (fun pad bytes => [List.replicate pad padChar, bytes])
      (fun pad => by simp [CString.len]) (by simp)
    simpa [Filling.run, Filling.exact, strPadLeft, CString.len] using hpad
  | padRight width padChar =>
    have hpad := strPad_iff text width malloc
      (fun pad bytes => [bytes, List.replicate pad padChar])
      (fun pad => by simp [CString.len, Nat.add_comm]) (by simp)
    simpa [Filling.run, Filling.exact, strPadRight, CString.len] using hpad
  | center width padChar =>
    have hpad := strPad_iff text width malloc
      (fun total bytes => [List.replicate (total / 2) padChar, bytes,
        List.replicate (total - total / 2) padChar])
      (fun pad => by simp [CString.len]; omega) (by simp)
    have hright : width - text.len - (width - text.len) / 2 = (width - text.len + 1) / 2 := by
      omega
    rw [hright] at hpad
    simpa [Filling.run, Filling.exact, strCenter, CString.len] using hpad

/-- `"ab"` repeated 2^63 times: the product wraps to 0, and the first copy does not fit into the
block of one byte. -/
theorem repeat_overruns :
    strRepeat (some ⟨⟨[97, 98], by decide⟩, by decide⟩) (2 ^ 63) (fun _ => some fun _ => 0) = none ∧
    ¬ Filled ((Filling.repeated (2 ^ 63)).run ⟨⟨[97, 98], by decide⟩, by decide⟩
      fun _ => some fun _ => 0) ((Filling.repeated (2 ^ 63)).exact [97, 98]) := by
  have hrun : strRepeat (some ⟨⟨[97, 98], by decide⟩, by decide⟩) (2 ^ 63)
      (fun _ => some fun _ => 0) = none := rfl
  refine ⟨hrun, fun hfilled => ?_⟩
  rw [Filling.run, hrun] at hfilled
  exact not_filled_none hfilled

end Solidc.Text
