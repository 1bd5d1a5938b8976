import Solidc.Lib.Endian
import Solidc.Unicode.Scalars

/-! # Reversing a string

`utf8_reverse` builds its result in a new string object, and mixes up that object, its data and
the string it is given: it reads the characters from the data of the new object, which is not yet
written, and it writes them at `&scratch[write_pos]`, which counts in whole objects and not in
bytes. So the object is modelled with its layout here: four words of 8 bytes, the address of the
data, `length`, `count` and `capacity`, and then the data.

The word of `length` is never written, and it is 0 in a new object.
-/

namespace Solidc.Unicode

open CLib

/-- `sizeof(utf8_string)`. -/
def sizeofUtf8String : Nat := 32

/-- A word of the object at the start of a block: the address of the data, `length`, `count` and
`capacity` are the words 0 to 3. -/
def word (block : CMem) (k : Nat) : Nat := ofLe ((block.drop (8 * k)).take 8)

/-- `utf8_new_with_capacity`, with the block at the address `base` and `fresh` as what `malloc`
leaves in the data. -/
def newBlock (base : Nat) (fresh : Nat → UInt8) (capacity : Nat) : Option CMem :=
  if capacity > maxCapacity then none
  else
    some (toLe 8 (base + sizeofUtf8String) ++ (toLe 8 0 ++ (toLe 8 0 ++ (toLe 8 capacity ++
      0 :: (List.range capacity).map fresh))))

/-- The loop of `utf8_reverse` for a string of `length` bytes; `ptr` is the address of the data
in the block. `some none` is a `NULL` result. -/
def reverseLoop (length : Nat) : Nat → CMem → Nat → Nat → Option (Option CMem)
  | 0, _, _, _ => none
  | fuel + 1, block, i, writePos =>
    if i < length then
      (utf8CharLength (block.drop (sizeofUtf8String + i))).bind fun len =>
      if len = 0 ∨ writePos < len then some none
      else
        (peek block (sizeofUtf8String + i) len).bind fun bytes =>
        (poke block.length block (sizeofUtf8String * (writePos - len)) bytes).bind fun block =>
        reverseLoop length fuel block (i + len) (writePos - len)
    else some (some block)

/-- `utf8_reverse`: the block of the result. -/
def utf8Reverse (base : Nat) (fresh : Nat → UInt8) (s : Utf8String) : Option (Option CMem) :=
  if s.length = 0 then some none
  else
    match newBlock base fresh (s.length + 1) with
    | none => some none
    | some block =>
      (reverseLoop s.length (s.length + 1) block 0 s.length).bind fun r =>
      match r with
      | none => some none
      | some block => (poke block.length block (sizeofUtf8String + s.length) [0]).map some

/-- The object in a block at the address `base` is the reverse of `s`, which holds `cps`. -/
structure HoldsReverse (base : Nat) (block : CMem) (s : Utf8String) (cps : List Nat) : Prop where
  data : word block 0 = base + sizeofUtf8String
  content : cstr (block.drop sizeofUtf8String) = some (encodeAll cps.reverse)
  length : word block 1 = s.length
  count : word block 2 = cps.length

/-- The call returns the reverse. -/
def Reverses (base : Nat) (fresh : Nat → UInt8) (s : Utf8String) (cps : List Nat) : Prop :=
  ∃ block, utf8Reverse base fresh s = some (some block) ∧ HoldsReverse base block s cps

variable {base length capacity : Nat} {fresh : Nat → UInt8} {block block' bytes : List UInt8}

/-! ## The word that is never written -/

/-- A write changes nothing beside its bytes. -/
theorem poke_frame {off : Nat} (h : poke block.length block off bytes = some block') {k : Nat}
    (hk : k < off ∨ off + bytes.length ≤ k) : block'[k]? = block[k]? := by
  have hfits : off + bytes.length ≤ block.length := by
    unfold poke at h
    split at h
    · assumption
    · cases h
  rw [poke_eq hfits (by omega), Option.some.injEq] at h
  rw [← h]
  have htake : (block.take off).length = off := by
    rw [List.length_take]
    omega
  rcases hk with hk | hk
  · rw [List.getElem?_append_left (by omega), List.getElem?_take_of_lt hk]
  · rw [List.getElem?_append_right (by omega), List.getElem?_append_right (by omega), htake,
      List.getElem?_drop]
    congr 1
    omega

theorem word_frame {off : Nat} (h : poke block.length block off bytes = some block')
    (hoff : off + bytes.length ≤ 8 ∨ 16 ≤ off) : word block' 1 = word block 1 := by
  unfold word
  congr 1
  apply List.ext_getElem?
  intro j
  rw [List.getElem?_take, List.getElem?_take, List.getElem?_drop, List.getElem?_drop]
  split
  · exact poke_frame h (by omega)
  · rfl

theorem charLength_le {p : CMem} {len : Nat} (h : utf8CharLength p = some len) : len ≤ 4 := by
  unfold utf8CharLength at h
  obtain ⟨b, -, hb⟩ := Option.bind_eq_some_iff.mp h
  split_ifs at hb
  all_goals
    cases hb
    decide

/-- The loop leaves the word of `length`. -/
theorem word_reverseLoop {fuel i writePos : Nat}
    (h : reverseLoop length fuel block i writePos = some (some block')) :
    word block' 1 = word block 1 := by
  induction fuel generalizing block i writePos with
  | zero => cases h
  | succ fuel ih =>
    rw [reverseLoop] at h
    split at h
    · obtain ⟨len, hlen, h⟩ := Option.bind_eq_some_iff.mp h
      split at h
      · cases h
      · obtain ⟨bytes, hbytes, h⟩ := Option.bind_eq_some_iff.mp h
        obtain ⟨next, hnext, h⟩ := Option.bind_eq_some_iff.mp h
        have hle : bytes.length ≤ 8 := by
          have hfour := charLength_le hlen
          unfold peek at hbytes
          split at hbytes
          · rw [← Option.some.inj hbytes, List.length_take]
            omega
          · cases hbytes
        -- the bytes go to the beginning of an object, this one or one behind it
        have hoff : sizeofUtf8String * (writePos - len) + bytes.length ≤ 8 ∨
            16 ≤ sizeofUtf8String * (writePos - len) := by
          unfold sizeofUtf8String
          omega
        rw [ih h, word_frame hnext hoff]
    · cases h
      rfl

theorem word_newBlock (h : newBlock base fresh capacity = some block) : word block 1 = 0 := by
  unfold newBlock at h
  split at h
  · cases h
  · rw [← Option.some.inj h, word]
    have hdrop : ∀ l : CMem, (toLe 8 (base + sizeofUtf8String) ++ l).drop (8 * 1) = l := by
      intro l
      exact List.drop_left' (length_toLe 8 _)
    rw [hdrop, List.take_left' (length_toLe 8 0)]
    decide

/-- Whatever `utf8_reverse` returns for a string has length 0. -/
theorem utf8Reverse_length {s : Utf8String} (h : utf8Reverse base fresh s = some (some block)) :
    word block 1 = 0 := by
  unfold utf8Reverse at h
  split at h
  · cases h
  split at h
  · cases h
  next first hfirst =>
  obtain ⟨r, hloop, h⟩ := Option.bind_eq_some_iff.mp h
  cases r with
  | none => cases h
  | some last =>
    obtain ⟨ended, hended, heq⟩ := Option.map_eq_some_iff.mp h
    rw [Option.some.injEq] at heq
    -- the terminator is written into the data
    have hdata : 16 ≤ sizeofUtf8String + s.length := by
      unfold sizeofUtf8String
      omega
    rw [← heq, word_frame hended (.inr hdata), word_reverseLoop hloop, word_newBlock hfirst]

/-! ## The result -/

/-- The first character that is written for a string of three bytes or more goes behind the end of
the block. -/
theorem utf8Reverse_leaves_block {s : Utf8String} (hlong : 3 ≤ s.length)
    (halloc : s.length + 1 ≤ maxCapacity) (base : Nat) (fresh : Nat → UInt8) :
    utf8Reverse base fresh s = none := by
  unfold utf8Reverse
  rw [if_neg (by omega), newBlock, if_neg (Nat.not_lt.mpr halloc)]
  generalize hdata : (List.range (s.length + 1)).map fresh = data
  have hlen : data.length = s.length + 1 := by rw [← hdata, List.length_map, List.length_range]
  have hheader : ∀ a b c d : Nat, (toLe 8 a ++ (toLe 8 b ++ (toLe 8 c ++ (toLe 8 d ++
      0 :: data)))).drop (sizeofUtf8String + 0) = 0 :: data := by
    intro a b c d
    have hsplit : toLe 8 a ++ (toLe 8 b ++ (toLe 8 c ++ (toLe 8 d ++ 0 :: data))) =
        (toLe 8 a ++ (toLe 8 b ++ (toLe 8 c ++ toLe 8 d))) ++ 0 :: data := by
      simp only [List.append_assoc]
    rw [hsplit]
    exact List.drop_left' (by simp [sizeofUtf8String])
  have hsize : ∀ a b c d : Nat, (toLe 8 a ++ (toLe 8 b ++ (toLe 8 c ++ (toLe 8 d ++
      0 :: data)))).length = s.length + 34 := by
    intro a b c d
    simp only [List.length_append, length_toLe, List.length_cons, hlen]
    omega
  dsimp only
  rw [reverseLoop, if_pos (by omega), hheader, utf8CharLength_cons, Option.bind_some]
  -- the data of the new object begins with a terminator, whose length is 1
  have hone : charLen 0 = 1 := by decide
  rw [hone, if_neg (by omega), peek_eq (by rw [hsize]; unfold sizeofUtf8String; omega), hheader,
    Option.bind_some, poke, if_neg, Option.bind_none, Option.bind_none]
  rw [hsize, List.length_take, List.length_cons, hlen]
  unfold sizeofUtf8String
  omega

/-- `utf8_reverse` returns the reverse of no string. -/
theorem not_reverses {s : Utf8String} {cps : List Nat} (h : Represents s cps) (hne : cps ≠ [])
    (base : Nat) (fresh : Nat → UInt8) : ¬ Reverses base fresh s cps := by
  rintro ⟨block, hcall, hrev⟩
  have hlength := hrev.length
  rw [utf8Reverse_length hcall, h.length] at hlength
  have hle := length_le_encodeAll h.scalars
  have hpos := List.length_pos_iff.mpr hne
  omega

theorem not_reverses_letter : ¬ Reverses 0x1000 (fun _ => 0xCD) ⟨[0x41, 0], 1, 1, 1⟩ [0x41] := by
  refine not_reverses ⟨⟨⟨[], by decide⟩, by decide, by decide, by decide, by decide⟩, ?_, rfl⟩
    (List.cons_ne_nil _ _) _ _
  simp [Scalars, NonzeroScalar, unicodeMaxCodepoint]

/-- For `ABC` a byte is written 64 bytes into a block of 37. -/
theorem reverse_three_letters :
    ¬ Reverses 0x1000 (fun _ => 0xCD) ⟨[0x41, 0x42, 0x43, 0], 3, 3, 3⟩ [0x41, 0x42, 0x43] := by
  rintro ⟨block, hcall, -⟩
  have hleft : utf8Reverse 0x1000 (fun _ => 0xCD) ⟨[0x41, 0x42, 0x43, 0], 3, 3, 3⟩ = none := by
    decide +kernel
  rw [hleft] at hcall
  cases hcall

end Solidc.Unicode
