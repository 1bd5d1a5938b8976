import Solidc.Lib.CString

/-! # UTF-8 primitives (`unicode.c`)

The encoder, the decoder, the validator and the two counters. Bytes are `UInt8`,
codepoints are natural numbers: every shift in the source builds at most 21 bits
of a `uint32_t`, so nothing wraps. A pointer is the memory from it on, and each
read goes through `CMem.rd` in the order the source evaluates it, `&&` and `||`
stopping where C stops.
-/

namespace Solidc.Unicode

open CLib

/-- `UNICODE_MAX_CODEPOINT`. -/
def unicodeMaxCodepoint : Nat := 0x10FFFF

/-- The replacement character every decoding error yields. -/
def replacementCharacter : Nat := 0xFFFD

/-- The buffer `ucp_to_utf8` leaves behind, terminator included. -/
def ucpToUtf8 (codepoint : Nat) : List UInt8 :=
  if codepoint ≤ 0x7F then
    [UInt8.ofNat codepoint, 0]
  else if codepoint ≤ 0x7FF then
    [UInt8.ofNat (0xC0 ||| (codepoint >>> 6)),
     UInt8.ofNat (0x80 ||| (codepoint &&& 0x3F)), 0]
  else if codepoint ≤ 0xFFFF then
    [UInt8.ofNat (0xE0 ||| (codepoint >>> 12)),
     UInt8.ofNat (0x80 ||| ((codepoint >>> 6) &&& 0x3F)),
     UInt8.ofNat (0x80 ||| (codepoint &&& 0x3F)), 0]
  else if codepoint ≤ unicodeMaxCodepoint then
    [UInt8.ofNat (0xF0 ||| (codepoint >>> 18)),
     UInt8.ofNat (0x80 ||| ((codepoint >>> 12) &&& 0x3F)),
     UInt8.ofNat (0x80 ||| ((codepoint >>> 6) &&& 0x3F)),
     UInt8.ofNat (0x80 ||| (codepoint &&& 0x3F)), 0]
  else
    [0]

/-- `(u & 0xC0) == 0x80`: a continuation byte. -/
def isCont (u : UInt8) : Bool := u.toNat &&& 0xC0 == 0x80

/-- The value a 2-byte sequence spells. -/
def codepoint2 (u0 u1 : UInt8) : Nat :=
  ((u0.toNat &&& 0x1F) <<< 6) ||| (u1.toNat &&& 0x3F)

/-- The value a 3-byte sequence spells. -/
def codepoint3 (u0 u1 u2 : UInt8) : Nat :=
  (((u0.toNat &&& 0x0F) <<< 12) ||| ((u1.toNat &&& 0x3F) <<< 6)) ||| (u2.toNat &&& 0x3F)

/-- The value a 4-byte sequence spells. -/
def codepoint4 (u0 u1 u2 u3 : UInt8) : Nat :=
  ((((u0.toNat &&& 0x07) <<< 18) ||| ((u1.toNat &&& 0x3F) <<< 12)) |||
    ((u2.toNat &&& 0x3F) <<< 6)) ||| (u3.toNat &&& 0x3F)

/-- `utf8_to_codepoint`. -/
def utf8ToCodepoint (u : CMem) : Option Nat :=
  (u.rd 0).bind fun u0 =>
  if u0.toNat &&& 0x80 = 0 then some u0.toNat
  else if u0.toNat &&& 0xE0 = 0xC0 then
    (u.rd 1).bind fun u1 =>
    if isCont u1 then
      -- overlong forms, and below the surrogates, decode to the replacement character
      if codepoint2 u0 u1 < 0x80 then some replacementCharacter
      else some (codepoint2 u0 u1)
    else some replacementCharacter
  else if u0.toNat &&& 0xF0 = 0xE0 then
    (u.rd 1).bind fun u1 =>
    if isCont u1 then
      (u.rd 2).bind fun u2 =>
      if isCont u2 then
        if codepoint3 u0 u1 u2 < 0x800 then some replacementCharacter
        else if 0xD800 ≤ codepoint3 u0 u1 u2 ∧ codepoint3 u0 u1 u2 ≤ 0xDFFF then
          some replacementCharacter
        else some (codepoint3 u0 u1 u2)
      else some replacementCharacter
    else some replacementCharacter
  else if u0.toNat &&& 0xF8 = 0xF0 then
    (u.rd 1).bind fun u1 =>
    if isCont u1 then
      (u.rd 2).bind fun u2 =>
      if isCont u2 then
        (u.rd 3).bind fun u3 =>
        if isCont u3 then
          if codepoint4 u0 u1 u2 u3 < 0x10000 then some replacementCharacter
          else if unicodeMaxCodepoint < codepoint4 u0 u1 u2 u3 then some replacementCharacter
          else some (codepoint4 u0 u1 u2 u3)
        else some replacementCharacter
      else some replacementCharacter
    else some replacementCharacter
  else some replacementCharacter

/-- The loop of `utf8_count_codepoints` from a pointer on; `count` is the
codepoints seen so far. -/
def countCodepointsLoop : Nat → CMem → Nat → Option Nat
  | 0, _, _ => none
  | fuel + 1, s, count =>
    (s.rd 0).bind fun b =>
    if b = 0 then some count
    else countCodepointsLoop fuel (s.drop 1) (if isCont b then count else count + 1)

/-- `utf8_count_codepoints`. -/
def utf8CountCodepoints (s : CMem) : Option Nat :=
  countCodepointsLoop s.length s 0

/-- The loop of `utf8_valid_byte_count`. A malformed byte is skipped. -/
def validByteCountLoop : Nat → CMem → Nat → Option Nat
  | 0, _, _ => none
  | fuel + 1, s, count =>
    (s.rd 0).bind fun byte =>
    if byte = 0 then some count
    else if byte.toNat &&& 0x80 = 0 then validByteCountLoop fuel (s.drop 1) (count + 1)
    else if byte.toNat &&& 0xE0 = 0xC0 then
      (s.rd 1).bind fun b1 =>
      -- a sequence cut short by the NUL: only its lead byte is skipped
      if b1 = 0 then validByteCountLoop fuel (s.drop 1) count
      else if isCont b1 then validByteCountLoop fuel (s.drop 2) (count + 2)
      else validByteCountLoop fuel (s.drop 1) count
    else if byte.toNat &&& 0xF0 = 0xE0 then
      (s.rd 1).bind fun b1 =>
      if b1 = 0 then validByteCountLoop fuel (s.drop 1) count
      else (s.rd 2).bind fun b2 =>
      if b2 = 0 then validByteCountLoop fuel (s.drop 1) count
      else if isCont b1 && isCont b2 then validByteCountLoop fuel (s.drop 3) (count + 3)
      else validByteCountLoop fuel (s.drop 1) count
    else if byte.toNat &&& 0xF8 = 0xF0 then
      (s.rd 1).bind fun b1 =>
      if b1 = 0 then validByteCountLoop fuel (s.drop 1) count
      else (s.rd 2).bind fun b2 =>
      if b2 = 0 then validByteCountLoop fuel (s.drop 1) count
      else (s.rd 3).bind fun b3 =>
      if b3 = 0 then validByteCountLoop fuel (s.drop 1) count
      else if isCont b1 && isCont b2 && isCont b3 then
        validByteCountLoop fuel (s.drop 4) (count + 4)
      else validByteCountLoop fuel (s.drop 1) count
    else validByteCountLoop fuel (s.drop 1) count

/-- `utf8_valid_byte_count`. -/
def utf8ValidByteCount (s : CMem) : Option Nat :=
  validByteCountLoop s.length s 0

/-- `utf8_char_length`: the table looks at the leading byte only, and gives a
lone continuation byte the length 2. -/
def utf8CharLength (str : CMem) : Option Nat :=
  (str.rd 0).bind fun byte =>
  if byte.toNat ≤ 0x7F then some 1
  else if byte.toNat ≤ 0xDF then some 2
  else if byte.toNat ≤ 0xEF then some 3
  else if byte.toNat ≤ 0xF7 then some 4
  else some 0

/-- The loop of `is_valid_utf8`. -/
def isValidUtf8Loop : Nat → CMem → Option Bool
  | 0, _ => none
  | fuel + 1, utf8 =>
    (utf8.rd 0).bind fun byte =>
    if byte = 0 then some true
    else if byte.toNat &&& 0x80 = 0 then isValidUtf8Loop fuel (utf8.drop 1)
    else if byte.toNat &&& 0xE0 = 0xC0 then
      (utf8.rd 1).bind fun b1 =>
      if b1 = 0 ∨ !isCont b1 then some false
      else if codepoint2 byte b1 < 0x80 then some false
      else isValidUtf8Loop fuel (utf8.drop 2)
    else if byte.toNat &&& 0xF0 = 0xE0 then
      (utf8.rd 1).bind fun b1 =>
      if b1 = 0 then some false
      else (utf8.rd 2).bind fun b2 =>
      if b2 = 0 ∨ !isCont b1 ∨ !isCont b2 then some false
      else if codepoint3 byte b1 b2 < 0x800 ∨
          (0xD800 ≤ codepoint3 byte b1 b2 ∧ codepoint3 byte b1 b2 ≤ 0xDFFF) then some false
      else isValidUtf8Loop fuel (utf8.drop 3)
    else if byte.toNat &&& 0xF8 = 0xF0 then
      (utf8.rd 1).bind fun b1 =>
      if b1 = 0 then some false
      else (utf8.rd 2).bind fun b2 =>
      if b2 = 0 then some false
      else (utf8.rd 3).bind fun b3 =>
      if b3 = 0 ∨ !isCont b1 ∨ !isCont b2 ∨ !isCont b3 then some false
      else if codepoint4 byte b1 b2 b3 < 0x10000 ∨
          unicodeMaxCodepoint < codepoint4 byte b1 b2 b3 then some false
      else isValidUtf8Loop fuel (utf8.drop 4)
    else some false

/-- `is_valid_utf8`. -/
def isValidUtf8 (utf8 : CMem) : Option Bool :=
  isValidUtf8Loop utf8.length utf8

end Solidc.Unicode
