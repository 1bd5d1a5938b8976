import Solidc.Lib.Substring
import Solidc.Unicode.Utf8
import Mathlib.Algebra.Ring.Nat
import Mathlib.Algebra.Ring.Int.Defs

/-! # `utf8_string`

A string object is a buffer of `capacity + 1` bytes of which an initial part has been written,
with the numbers of bytes and of codepoints in it. `malloc` and `realloc` succeed; a request that
does not fit `size_t` is refused by the code itself. Arguments are separate from the buffer.

`none` is an access outside a buffer or of bytes that were never written; a `NULL` result is a
`none` inside.
-/

namespace Solidc.Unicode

open CLib

/-! ## Buffers -/

/-- `n` bytes from `off` on. -/
def peek (mem : CMem) (off n : Nat) : Option (List UInt8) :=
  if off + n ≤ mem.length then some ((mem.drop off).take n) else none

/-- What stands in a gap that has not been written yet. -/
def junk : UInt8 := 0xCD

/-- The bytes are written at `off` into a buffer of `size` bytes. -/
def poke (size : Nat) (mem : CMem) (off : Nat) (bytes : List UInt8) : Option CMem :=
  if off + bytes.length ≤ size then
    some ((mem ++ List.replicate (off - mem.length) junk).take off ++
      (bytes ++ mem.drop (off + bytes.length)))
  else none

/-- `memmove` within a buffer. -/
def memmove (size : Nat) (mem : CMem) (dst src n : Nat) : Option CMem :=
  (peek mem src n).bind (poke size mem dst)

/-- The string at a pointer; without a terminator it has no value. -/
def cstr (mem : CMem) : Option (List UInt8) := if 0 ∈ mem then some (cstrOf mem) else none

/-- `strstr(s, needle)`, as an offset. -/
def strstr (s needle : CMem) : Option (Option Nat) :=
  (cstr s).bind fun hay => (cstr needle).map fun n => findSub n hay

/-! ## String objects -/

structure Utf8String where
  data : CMem
  length : Nat
  count : Nat
  capacity : Nat

/-- `SIZE_MAX - sizeof(utf8_string) - 1`. -/
def maxCapacity : Nat := 2 ^ 64 - 1 - 32 - 1

/-- Difference of two `size_t`. -/
def sizeSub (a b : Nat) : Nat := (((a : Int) - b) % 2 ^ 64).toNat

def utf8StringAlloc (dataCapacity : Nat) : Option Utf8String :=
  if dataCapacity > maxCapacity then none else some ⟨[0], 0, 0, dataCapacity⟩

def utf8NewWithCapacity (capacity : Nat) : Option Utf8String := utf8StringAlloc capacity

/-- `utf8_string_grow`; `none` for `false`. -/
def utf8StringGrow (s : Utf8String) (minCapacity : Nat) : Option Utf8String :=
  if s.capacity ≥ minCapacity then some s
  else
    let doubled := s.capacity * 2 % 2 ^ 64
    let newCapacity := if doubled < minCapacity then minCapacity else doubled
    if newCapacity > maxCapacity then none else some { s with capacity := newCapacity }

/-- `utf8_new`. -/
def utf8New (data : CMem) : Option (Option Utf8String) :=
  (utf8ValidByteCount data).bind fun length =>
  match utf8StringAlloc length with
  | none => some none
  | some s =>
    (peek data 0 length).bind fun bytes =>
    (poke (s.capacity + 1) s.data 0 bytes).bind fun buf =>
    (poke (s.capacity + 1) buf length [0]).bind fun buf =>
    (utf8CountCodepoints buf).map fun count =>
    some { s with data := buf, length := length, count := count }

/-- `utf8_append`. -/
def utf8Append (s : Utf8String) (data : CMem) : Option (Utf8String × Bool) :=
  (utf8ValidByteCount data).bind fun length =>
  (utf8CountCodepoints data).bind fun count =>
  match utf8StringGrow s (s.length + length) with
  | none => some (s, false)
  | some s =>
    (peek data 0 length).bind fun bytes =>
    (poke (s.capacity + 1) s.data s.length bytes).bind fun buf =>
    (poke (s.capacity + 1) buf (s.length + length) [0]).map fun buf =>
    ({ s with
      data := buf, length := s.length + length, count := (s.count + count) % 2 ^ 64 }, true)

/-- `utf8_insert`. -/
def utf8Insert (s : Utf8String) (index : Nat) (data : CMem) : Option (Utf8String × Bool) :=
  if index > s.length then some (s, false)
  else
    (utf8ValidByteCount data).bind fun length =>
    (utf8CountCodepoints data).bind fun count =>
    if length = 0 then some (s, true)
    else
      match utf8StringGrow s (s.length + length) with
      | none => some (s, false)
      | some s =>
        (memmove (s.capacity + 1) s.data (index + length) index (s.length - index + 1)).bind
          fun buf =>
        (peek data 0 length).bind fun bytes =>
        (poke (s.capacity + 1) buf index bytes).map fun buf =>
        ({ s with
          data := buf, length := s.length + length, count := (s.count + count) % 2 ^ 64 }, true)

/-- The loop of `utf8_remove`: where it ends, and how many characters it has passed. -/
def removeLoop (s : Utf8String) (count : Nat) : Nat → Nat → Nat → Option (Nat × Nat)
  | 0, _, _ => none
  | fuel + 1, i, removed =>
    if removed < count ∧ i < s.length then
      (utf8CharLength (s.data.drop i)).bind fun len =>
      if len = 0 then some (i, removed) else removeLoop s count fuel (i + len) (removed + 1)
    else some (i, removed)

/-- `utf8_remove`. -/
def utf8Remove (s : Utf8String) (index count : Nat) : Option (Utf8String × Bool) :=
  if index ≥ s.length ∨ count = 0 then some (s, false)
  else
    (removeLoop s count (s.length + 1) index 0).bind fun (stop, removed) =>
    let i := if stop > s.length then s.length else stop
    (memmove (s.capacity + 1) s.data index i (s.length - i + 1)).map fun buf =>
    ({ s with
      data := buf, length := s.length - (i - index), count := sizeSub s.count removed }, true)

/-- The bytes and codepoints of two strings, as `utf8_replace` counts them. -/
structure Measures where
  oldByteLen : Nat
  newByteLen : Nat
  oldCount : Nat
  newCount : Nat

def measure (oldStr newStr : CMem) : Option Measures :=
  (utf8ValidByteCount oldStr).bind fun oldByteLen =>
  (utf8ValidByteCount newStr).bind fun newByteLen =>
  (utf8CountCodepoints oldStr).bind fun oldCount =>
  (utf8CountCodepoints newStr).map fun newCount => ⟨oldByteLen, newByteLen, oldCount, newCount⟩

/-- The replacement at `offset`, in `utf8_replace` and `utf8_replace_all`; `some none` if the
buffer cannot grow. -/
def replaceAt (s : Utf8String) (m : Measures) (newStr : CMem) (offset : Nat) :
    Option (Option Utf8String) :=
  match if m.newByteLen > m.oldByteLen
      then utf8StringGrow s (s.length - m.oldByteLen + m.newByteLen) else some s with
  | none => some none
  | some s =>
    (memmove (s.capacity + 1) s.data (offset + m.newByteLen) (offset + m.oldByteLen)
      (s.length - offset - m.oldByteLen + 1)).bind fun buf =>
    (peek newStr 0 m.newByteLen).bind fun bytes =>
    (poke (s.capacity + 1) buf offset bytes).map fun buf =>
    some { s with
      data := buf
      length := s.length - m.oldByteLen + m.newByteLen
      count := (sizeSub s.count m.oldCount + m.newCount) % 2 ^ 64 }

/-- `utf8_replace`. -/
def utf8Replace (s : Utf8String) (oldStr newStr : CMem) : Option (Utf8String × Bool) :=
  (strstr s.data oldStr).bind fun found =>
  match found with
  | none => some (s, false)
  | some offset =>
    (measure oldStr newStr).bind fun m =>
    (replaceAt s m newStr offset).map fun r =>
    match r with
    | none => (s, false)
    | some s => (s, true)

/-- The loop of `utf8_replace_all` from the offset `cursor` on. -/
def replaceAllLoop (m : Measures) (oldStr newStr : CMem) :
    Nat → Utf8String → Nat → Nat → Option (Utf8String × Nat)
  | 0, _, _, _ => none
  | fuel + 1, s, cursor, replacements =>
    (strstr (s.data.drop cursor) oldStr).bind fun found =>
    match found with
    | none => some (s, replacements)
    | some k =>
      (replaceAt s m newStr (cursor + k)).bind fun r =>
      match r with
      | none => some (s, replacements)
      | some s =>
        replaceAllLoop m oldStr newStr fuel s (cursor + k + m.newByteLen) (replacements + 1)

/-- `utf8_replace_all`: the string and the number of replacements. Every turn of the loop leaves
fewer bytes behind the cursor. -/
def utf8ReplaceAll (s : Utf8String) (oldStr newStr : CMem) : Option (Utf8String × Nat) :=
  (measure oldStr newStr).bind fun m =>
  if m.oldByteLen = 0 then some (s, 0)
  else replaceAllLoop m oldStr newStr (s.length + 1) s 0 0

/-- `utf8_concat`. -/
def utf8Concat (s1 s2 : Utf8String) : Option (Option Utf8String) :=
  match utf8NewWithCapacity (s1.length + s2.length) with
  | none => some none
  | some result =>
    (peek s1.data 0 s1.length).bind fun b1 =>
    (poke (result.capacity + 1) result.data 0 b1).bind fun buf =>
    (peek s2.data 0 s2.length).bind fun b2 =>
    (poke (result.capacity + 1) buf s1.length b2).bind fun buf =>
    (poke (result.capacity + 1) buf (s1.length + s2.length) [0]).map fun buf =>
    some { result with
      data := buf
      length := s1.length + s2.length
      count := (s1.count + s2.count) % 2 ^ 64 }

end Solidc.Unicode
