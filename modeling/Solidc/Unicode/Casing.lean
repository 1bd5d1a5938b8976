import Solidc.Unicode.Scalars

/-! # Changing case in place

`utf8_tolower` and `utf8_toupper` walk over a string and overwrite it. An ASCII byte is changed by
arithmetic on a range test, any other character by the functions of the platform, which are
parameters here; when its encoding becomes longer or shorter the tail of the string moves.

The range tests begin one character too early: `@` becomes a backquote in `utf8_tolower`, and a
backquote becomes `@` in `utf8_toupper`. The tail may need more room on the way than in the end.

* `caseLoop_encodeAll` — what the loop does to an encoded list, and when it runs out of room;
* `leavesEncoding_iff` — when that is a given change of case;
* `casing_iff` — the two functions at once: the exact condition.
-/

namespace Solidc.Unicode

open CLib

/-- The functions of `wctype.h`. -/
structure Wctype where
  iswupper : Nat → Bool
  iswlower : Nat → Bool
  towlower : Nat → Nat
  towupper : Nat → Nat

/-! ## The functions -/

/-- `byte - first + 1u <= 26u`, the sum in 32 bits. -/
def rangeTest (first : Nat) (byte : UInt8) : Nat :=
  if (((byte.toNat : Int) - first + 1) % 2 ^ 32) ≤ 26 then 1 else 0

/-- `byte | (is_upper << 5)`. -/
def asciiLower (byte : UInt8) : UInt8 := UInt8.ofNat (byte.toNat ||| (rangeTest 0x41 byte <<< 5))

/-- `byte & ~(is_lower << 5)`. -/
def asciiUpper (byte : UInt8) : UInt8 :=
  UInt8.ofNat (byte.toNat &&& (0xFF ^^^ (rangeTest 0x61 byte <<< 5)))

/-- `if (new_len != old_len)`: the tail of the string moves. -/
def shiftTail (size : Nat) (str : CMem) (i oldLen newLen : Nat) : Option CMem :=
  if newLen ≠ oldLen then
    (cstr (str.drop (i + oldLen))).bind fun remaining =>
    memmove size str (i + newLen) (i + oldLen) (remaining.length + 1)
  else some str

/-- The loop of both functions from `i` on, in a buffer of `size` bytes: `ascii` is the change of
an ASCII byte, `isCased` and `toCase` are the test and the change of other characters. -/
def caseLoop (size : Nat) (ascii : UInt8 → UInt8) (isCased : Nat → Bool) (toCase : Nat → Nat) :
    Nat → CMem → Nat → Option CMem
  | 0, _, _ => none
  | fuel + 1, str, i =>
    (str.rd i).bind fun byte =>
    if byte = 0 then some str
    else if byte.toNat < 0x80 then
      (poke size str i [ascii byte]).bind fun str =>
      caseLoop size ascii isCased toCase fuel str (i + 1)
    else
      (utf8ToCodepoint (str.drop i)).bind fun codepoint =>
      (utf8CharLength (str.drop i)).bind fun oldLen =>
      if oldLen = 0 then some str
      else if isCased codepoint then
        (utf8ValidByteCount (ucpToUtf8 (toCase codepoint))).bind fun newLen =>
        (shiftTail size str i oldLen newLen).bind fun str =>
        (peek (ucpToUtf8 (toCase codepoint)) 0 newLen).bind fun utf8 =>
        (poke size str i utf8).bind fun str =>
        caseLoop size ascii isCased toCase fuel str (i + newLen)
      else caseLoop size ascii isCased toCase fuel str (i + oldLen)

/-- `utf8_tolower` on a string at the start of a buffer of `size` bytes. -/
def utf8Tolower (w : Wctype) (size : Nat) (str : CMem) : Option CMem :=
  caseLoop size asciiLower w.iswupper w.towlower str.length str 0

/-- `utf8_toupper`. -/
def utf8Toupper (w : Wctype) (size : Nat) (str : CMem) : Option CMem :=
  caseLoop size asciiUpper w.iswlower w.towupper str.length str 0

/-! ## What they are for -/

/-- The lower case of a character. -/
def lowerCase (w : Wctype) (c : Nat) : Nat :=
  if c < 0x80 then if 0x41 ≤ c ∧ c ≤ 0x5A then c + 0x20 else c
  else if w.iswupper c then w.towlower c else c

/-- The upper case of a character. -/
def upperCase (w : Wctype) (c : Nat) : Nat :=
  if c < 0x80 then if 0x61 ≤ c ∧ c ≤ 0x7A then c - 0x20 else c
  else if w.iswlower c then w.towupper c else c

/-- The buffer that is left holds the encoding of `cps`, which is valid UTF-8. -/
def LeavesEncoding (r : Option CMem) (cps : List Nat) : Prop :=
  ∃ str, r = some str ∧ cstr str = some (encodeAll cps) ∧ isValidUtf8 str = some true

/-- The string fits the buffer, behind `n` bytes, with any number of its first characters
changed by `f`. -/
def FitsAlong (size : Nat) (f : Nat → Nat) (n : Nat) (cps : List Nat) : Prop :=
  ∀ k ≤ cps.length, n + (encodeAll ((cps.take k).map f ++ cps.drop k)).length < size

/-! ## One character -/

/-- What the loop changes a character to. -/
def caseMap (ascii : UInt8 → UInt8) (isCased : Nat → Bool) (toCase : Nat → Nat) (c : Nat) : Nat :=
  if c < 0x80 then (ascii (UInt8.ofNat c)).toNat
  else if isCased c then toCase c else c

/-- The letters are changed, and `@`. -/
theorem asciiLower_eq : ∀ c < 0x80, (asciiLower (UInt8.ofNat c)).toNat =
    if 0x40 ≤ c ∧ c ≤ 0x5A then c + 0x20 else c := by
  decide +kernel

/-- The letters are changed, and the backquote. -/
theorem asciiUpper_eq : ∀ c < 0x80, (asciiUpper (UInt8.ofNat c)).toNat =
    if 0x60 ≤ c ∧ c ≤ 0x7A then c - 0x20 else c := by
  decide +kernel

/-- A change of ASCII bytes that keeps them ASCII, and off the terminator. -/
def AsciiMap (ascii : UInt8 → UInt8) : Prop :=
  ∀ c, 0 < c → c < 0x80 →
    0 < (ascii (UInt8.ofNat c)).toNat ∧ (ascii (UInt8.ofNat c)).toNat < 0x80

theorem asciiMap_lower : AsciiMap asciiLower := by
  intro c hpos hlt
  rw [asciiLower_eq c hlt]
  split <;> omega

theorem asciiMap_upper : AsciiMap asciiUpper := by
  intro c hpos hlt
  rw [asciiUpper_eq c hlt]
  split <;> omega

theorem ucpToUtf8_eq {c : Nat} (h : NonzeroScalar c) : ucpToUtf8 c = encoding c ++ [0] := by
  obtain ⟨l, hl, hspell⟩ := ucpToUtf8_spells h
  rw [encoding, hl, cstrOf_terminated hspell.ne_zero]

theorem validByteCount_ucpToUtf8 {c : Nat} (h : NonzeroScalar c) :
    utf8ValidByteCount (ucpToUtf8 c) = some (encoding c).length := by
  have hpos := (spells_encoding h).length_pos
  have hone : ∀ x ∈ [c], NonzeroScalar x := by simpa using h
  have hcount := validByteCountLoop_encodeAll hone (encoding c ++ [0]).length (by simp; omega) 0
  rw [encodeAll_cons, encodeAll_nil, List.append_nil, Nat.zero_add] at hcount
  rw [ucpToUtf8_eq h, utf8ValidByteCount, hcount]

theorem encoding_ascii {c : Nat} (hpos : 0 < c) (hlt : c < 0x80) :
    encoding c = [UInt8.ofNat c] := by
  have hb : UInt8.ofNat c ≠ 0 := ne_zero_of_toNat (by rw [UInt8.toNat_ofNat']; omega)
  have hle : c ≤ 0x7F := by omega
  simp [encoding, ucpToUtf8, hle, cstrOf, hb]

/-- The first byte of a character tells ASCII from the rest. -/
theorem encoding_head {c : Nat} (h : NonzeroScalar c) (hc : 0x80 ≤ c) :
    ∃ b l, encoding c = b :: l ∧ b ≠ 0 ∧ ¬ b.toNat < 0x80 := by
  have hspell := spells_encoding h
  have hnz := hspell.ne_zero
  generalize encoding c = l at *
  cases hspell with
  | one hcb hpos hlt => omega
  | two h0 => exact ⟨_, _, rfl, hnz _ List.mem_cons_self, by omega⟩
  | three h0 => exact ⟨_, _, rfl, hnz _ List.mem_cons_self, by omega⟩
  | four h0 => exact ⟨_, _, rfl, hnz _ List.mem_cons_self, by omega⟩

/-- Reading behind a known part of the memory. -/
theorem rd_front (front p : CMem) : CMem.rd (front ++ p) front.length = p.rd 0 := by
  show (front ++ p)[front.length]? = p[0]?
  rw [List.getElem?_append_right (Nat.le_refl _), Nat.sub_self]

section loop

variable {size : Nat} {ascii : UInt8 → UInt8} {isCased : Nat → Bool} {toCase : Nat → Nat}
  {c : Nat} {cps : List Nat} {front rest : List UInt8}

theorem caseMap_scalar (hascii : AsciiMap ascii) (hc : NonzeroScalar c)
    (hcase : isCased c = true → NonzeroScalar (toCase c)) :
    NonzeroScalar (caseMap ascii isCased toCase c) := by
  unfold caseMap
  split_ifs with hlt hcased
  · have := hascii c hc.1 hlt
    unfold NonzeroScalar unicodeMaxCodepoint
    omega
  · exact hcase hcased
  · exact hc

/-- The next character gives way to another one, if there is room. -/
theorem replaceHead {old tail : List UInt8} (new : List UInt8) (h0 : 0 ∉ tail)
    (hsize : (front ++ (old ++ tail) ++ 0 :: rest).length ≤ size) :
    (¬ (front ++ (new ++ tail)).length < size ∧
      ((shiftTail size (front ++ (old ++ tail) ++ 0 :: rest) front.length old.length
        new.length).bind fun str => poke size str front.length new) = none) ∨
    ∃ rest', (front ++ (new ++ tail)).length < size ∧
      ((shiftTail size (front ++ (old ++ tail) ++ 0 :: rest) front.length old.length
        new.length).bind fun str => poke size str front.length new) =
          some (front ++ (new ++ tail) ++ 0 :: rest') ∧
      (front ++ (new ++ tail) ++ 0 :: rest').length ≤ size := by
  have hdrop : (front ++ (old ++ tail) ++ 0 :: rest).drop (front.length + old.length) =
      tail ++ 0 :: rest := by
    rw [List.append_assoc, List.drop_length_add_append, List.append_assoc, List.drop_left]
  have htake : (front ++ (old ++ tail) ++ 0 :: rest).take front.length = front := by
    rw [List.append_assoc, List.take_left]
  have hlen := hsize
  simp only [List.length_append, List.length_cons] at hlen
  unfold shiftTail
  by_cases hsame : new.length = old.length
  · -- nothing moves
    right
    refine ⟨rest, by simp only [List.length_append]; omega, ?_, ?_⟩
    · rw [if_neg (not_not.mpr hsame), Option.bind_some, poke_eq (by omega)
        (by simp only [List.length_append]; omega), htake, hsame, hdrop]
      simp only [List.append_assoc]
    · simp only [List.length_append, List.length_cons]
      omega
  rw [if_pos hsame, hdrop, cstr_append h0, Option.bind_some]
  have hmoved : tail.length + 1 =
      (front ++ (old ++ tail)).length - front.length - old.length + 1 := by
    simp only [List.length_append]
    omega
  by_cases hroom : (front ++ (new ++ tail)).length < size
  · right
    simp only [List.length_append] at hroom
    have hfits : front.length + old.length ≤ (front ++ (old ++ tail)).length := by
      simp only [List.length_append]
      omega
    obtain ⟨buf, more, hmove, hbuf, hfront, hn, hback⟩ :=
      splice new.length hfits (by rw [← hmoved]; omega) hsize
    have hpoke := splice_poke rfl hbuf hfront hn hback
    rw [List.take_left, List.drop_length_add_append, List.drop_left] at hpoke
    refine ⟨more, by simp only [List.length_append]; exact hroom, ?_, ?_⟩
    · rw [hmoved, hmove, Option.bind_some, hpoke]
      simp only [List.append_assoc]
    · have hsum := congrArg List.length hback
      simp only [List.length_append, List.length_cons, List.length_drop] at hsum ⊢
      omega
  · -- the move leaves the buffer
    left
    refine ⟨hroom, ?_⟩
    simp only [List.length_append] at hroom
    have hread : peek (front ++ (old ++ tail) ++ 0 :: rest) (front.length + old.length)
        (tail.length + 1) = some ((tail ++ 0 :: rest).take (tail.length + 1)) := by
      rw [peek_eq (by simp only [List.length_append, List.length_cons]; omega), hdrop]
    rw [memmove, hread, Option.bind_some, poke, if_neg, Option.bind_none]
    simp only [List.length_take, List.length_append, List.length_cons]
    omega

/-! ## The loop -/

/-- One turn of the loop changes one character, if there is room. -/
theorem caseLoop_step (hascii : AsciiMap ascii) (hc : NonzeroScalar c)
    (hcase : isCased c = true → NonzeroScalar (toCase c)) (hcps : Scalars cps)
    (hsize : (front ++ (encoding c ++ encodeAll cps) ++ 0 :: rest).length ≤ size) (fuel : Nat) :
    (¬ (front ++ (encoding (caseMap ascii isCased toCase c) ++ encodeAll cps)).length < size ∧
      caseLoop size ascii isCased toCase (fuel + 1)
        (front ++ (encoding c ++ encodeAll cps) ++ 0 :: rest) front.length = none) ∨
    ∃ rest', (front ++ (encoding (caseMap ascii isCased toCase c) ++ encodeAll cps)).length < size ∧
      caseLoop size ascii isCased toCase (fuel + 1)
        (front ++ (encoding c ++ encodeAll cps) ++ 0 :: rest) front.length =
      caseLoop size ascii isCased toCase fuel
        (front ++ (encoding (caseMap ascii isCased toCase c) ++ encodeAll cps) ++ 0 :: rest')
        (front.length + (encoding (caseMap ascii isCased toCase c)).length) ∧
      (front ++ (encoding (caseMap ascii isCased toCase c) ++ encodeAll cps) ++
        0 :: rest').length ≤ size := by
  have h0 := zero_not_mem_encodeAll hcps
  have hlen := hsize
  simp only [List.length_append, List.length_cons] at hlen
  rw [caseLoop]
  by_cases hlt : c < 0x80
  · -- an ASCII byte
    have hb : UInt8.ofNat c ≠ 0 := ne_zero_of_toNat
      (by rw [UInt8.toNat_ofNat']; have := hc.1; omega)
    have hbyte : (UInt8.ofNat c).toNat < 0x80 := by
      rw [UInt8.toNat_ofNat']
      omega
    have hold := encoding_ascii hc.1 hlt
    have hmap : caseMap ascii isCased toCase c = (ascii (UInt8.ofNat c)).toNat := if_pos hlt
    obtain ⟨hpos', hlt'⟩ := hascii c hc.1 hlt
    have hnew : encoding (caseMap ascii isCased toCase c) = [ascii (UInt8.ofNat c)] := by
      rw [hmap, encoding_ascii hpos' hlt', UInt8.ofNat_toNat]
    right
    rw [hnew]
    rw [hold] at hlen ⊢
    refine ⟨rest, ?_, ?_, ?_⟩
    · simp only [List.length_append, List.length_cons, List.length_nil] at hlen ⊢
      omega
    · have hpoke : poke size (front ++ ([UInt8.ofNat c] ++ encodeAll cps) ++ 0 :: rest)
          front.length [ascii (UInt8.ofNat c)] =
          some (front ++ ([ascii (UInt8.ofNat c)] ++ encodeAll cps) ++ 0 :: rest) := by
        rw [List.append_assoc, poke_append]
        · simp
        · simp only [List.length_cons, List.length_nil] at hlen ⊢
          omega
      have hread : CMem.rd (front ++ ([UInt8.ofNat c] ++ encodeAll cps) ++ 0 :: rest)
          front.length = some (UInt8.ofNat c) := by
        rw [List.append_assoc, rd_front]
        rfl
      rw [hread, Option.bind_some, if_neg hb, if_pos hbyte, hpoke, Option.bind_some]
      rfl
    · simp only [List.length_append, List.length_cons, List.length_nil] at hlen ⊢
      omega
  · -- a longer character
    obtain ⟨b, l, hbl, hb, hbyte⟩ := encoding_head hc (Nat.le_of_not_lt hlt)
    have hread : CMem.rd (front ++ (encoding c ++ encodeAll cps) ++ 0 :: rest) front.length =
        some b := by
      rw [List.append_assoc, rd_front, hbl]
      rfl
    have hspell := spells_encoding hc
    have hdrop : (front ++ (encoding c ++ encodeAll cps) ++ 0 :: rest).drop front.length =
        encoding c ++ (encodeAll cps ++ 0 :: rest) := by
      rw [List.append_assoc, List.drop_left, List.append_assoc]
    have hpos := hspell.length_pos
    rw [hread, Option.bind_some, if_neg hb, if_neg hbyte, hdrop, toCodepoint_spells hspell,
      Option.bind_some, charLength_spells hspell, Option.bind_some, if_neg (Nat.ne_of_gt hpos)]
    by_cases hcased : isCased c = true
    · have hmap : caseMap ascii isCased toCase c = toCase c := by
        rw [caseMap, if_neg hlt, if_pos hcased]
      have hscalar := hcase hcased
      have hutf8 : peek (ucpToUtf8 (toCase c)) 0 (encoding (toCase c)).length =
          some (encoding (toCase c)) := by
        rw [ucpToUtf8_eq hscalar, peek_eq (by simp), List.drop_zero, List.take_left]
      rw [hmap, if_pos hcased, validByteCount_ucpToUtf8 hscalar, Option.bind_some]
      simp only [hutf8, Option.bind_some]
      rcases replaceHead (encoding (toCase c)) h0 hsize with ⟨hfull, hnone⟩ |
        ⟨rest', hroom, hsome, hlen'⟩
      · exact .inl ⟨hfull, by rw [← Option.bind_assoc, hnone, Option.bind_none]⟩
      · exact .inr ⟨rest', hroom, by rw [← Option.bind_assoc, hsome, Option.bind_some], hlen'⟩
    · have hmap : caseMap ascii isCased toCase c = c := by
        rw [caseMap, if_neg hlt, if_neg hcased]
      rw [hmap, if_neg hcased]
      exact .inr ⟨rest, by simp only [List.length_append]; omega, rfl, hsize⟩

theorem fitsAlong_cons {f : Nat → Nat} {n : Nat} : FitsAlong size f n (c :: cps) ↔
    n + (encodeAll (c :: cps)).length < size ∧
      FitsAlong size f (n + (encoding (f c)).length) cps := by
  have hsucc : ∀ k, n + (encodeAll (((c :: cps).take (k + 1)).map f ++
      (c :: cps).drop (k + 1))).length =
      n + (encoding (f c)).length + (encodeAll ((cps.take k).map f ++ cps.drop k)).length := by
    intro k
    rw [List.take_succ_cons, List.map_cons, List.cons_append, List.drop_succ_cons, encodeAll_cons,
      List.length_append, Nat.add_assoc]
  constructor
  · intro h
    refine ⟨h 0 (Nat.zero_le _), ?_⟩
    intro k hk
    rw [← hsucc]
    exact h (k + 1) (Nat.succ_le_succ hk)
  · rintro ⟨hfirst, hrest⟩ k hk
    cases k with
    | zero => exact hfirst
    | succ k =>
      rw [hsucc]
      exact hrest k (Nat.le_of_succ_le_succ hk)

/-- The loop changes every character of an encoded list, as long as there is room. -/
theorem caseLoop_encodeAll (hascii : AsciiMap ascii) (hcps : Scalars cps)
    (hcase : ∀ c ∈ cps, isCased c = true → NonzeroScalar (toCase c))
    (hsize : (front ++ encodeAll cps ++ 0 :: rest).length ≤ size) {fuel : Nat}
    (hfuel : cps.length < fuel) :
    (¬ FitsAlong size (caseMap ascii isCased toCase) front.length cps ∧
      caseLoop size ascii isCased toCase fuel (front ++ encodeAll cps ++ 0 :: rest) front.length =
        none) ∨
    ∃ rest', FitsAlong size (caseMap ascii isCased toCase) front.length cps ∧
      caseLoop size ascii isCased toCase fuel (front ++ encodeAll cps ++ 0 :: rest) front.length =
        some (front ++ encodeAll (cps.map (caseMap ascii isCased toCase)) ++ 0 :: rest') := by
  induction cps generalizing front rest fuel with
  | nil =>
    obtain ⟨fuel, rfl⟩ := Nat.exists_eq_succ_of_ne_zero (Nat.ne_of_gt hfuel)
    right
    refine ⟨rest, ?_, ?_⟩
    · intro k hk
      simp only [List.length_append, List.length_cons, encodeAll_nil, List.length_nil] at hsize ⊢
      simp only [List.take_nil, List.drop_nil, List.map_nil, List.append_nil, encodeAll_nil,
        List.length_nil]
      omega
    · rw [caseLoop]
      simp [CMem.rd]
  | cons c cps ih =>
    obtain ⟨fuel, rfl⟩ := Nat.exists_eq_succ_of_ne_zero (Nat.ne_of_gt (Nat.zero_lt_of_lt hfuel))
    have hlen := hsize
    rw [encodeAll_cons] at hsize ⊢
    simp only [List.length_append, List.length_cons] at hlen
    rcases caseLoop_step hascii (hcps c List.mem_cons_self) (hcase c List.mem_cons_self) hcps.tail
      hsize fuel with ⟨hfull, hnone⟩ | ⟨rest', hroom, hstep, hsize'⟩
    · -- the first character does not fit where it stands: the loop stops there
      left
      refine ⟨?_, hnone⟩
      intro hfits
      have hnext := (fitsAlong_cons.mp hfits).2 0 (Nat.zero_le _)
      rw [List.take_zero, List.drop_zero, List.map_nil, List.nil_append] at hnext
      simp only [List.length_append] at hfull
      omega
    · rw [hstep]
      have hfront : (front ++ encoding (caseMap ascii isCased toCase c)).length =
          front.length + (encoding (caseMap ascii isCased toCase c)).length := List.length_append
      rw [← List.append_assoc] at hsize' ⊢
      rw [← hfront]
      -- it fits, and from here on the buffer is the one of the rest, the new front before it
      have hfitsIff : FitsAlong size (caseMap ascii isCased toCase) front.length (c :: cps) ↔
          FitsAlong size (caseMap ascii isCased toCase)
            (front ++ encoding (caseMap ascii isCased toCase c)).length cps := by
        rw [fitsAlong_cons, hfront]
        refine and_iff_right ?_
        omega
      rw [hfitsIff, List.map_cons, encodeAll_cons, ← List.append_assoc]
      exact ih hcps.tail (fun c hc => hcase c (List.mem_cons_of_mem _ hc)) hsize'
        (Nat.lt_of_succ_lt_succ hfuel)

/-! ## The calls -/

theorem FitsAlong.congr {f g : Nat → Nat} {n : Nat} (h : ∀ c ∈ cps, f c = g c)
    (hf : FitsAlong size f n cps) : FitsAlong size g n cps := by
  intro k hk
  have hmap : (cps.take k).map f = (cps.take k).map g :=
    List.map_congr_left fun c hc => h c (List.mem_of_mem_take hc)
  rw [← hmap]
  exact hf k hk

/-- The loop leaves the list changed by `g` when the one character that it changes otherwise is
not there, and the string fits the buffer all the way. -/
theorem leavesEncoding_iff {g : Nat → Nat} {x : Nat} (hascii : AsciiMap ascii)
    (hg : ∀ c, caseMap ascii isCased toCase c = g c ↔ c ≠ x)
    (hscalar : ∀ c ∈ cps, NonzeroScalar (g c))
    (hcps : Scalars cps) (hcase : ∀ c ∈ cps, isCased c = true → NonzeroScalar (toCase c))
    (hsize : (encodeAll cps ++ 0 :: rest).length ≤ size) :
    LeavesEncoding (caseLoop size ascii isCased toCase (encodeAll cps ++ 0 :: rest).length
      (encodeAll cps ++ 0 :: rest) 0) (cps.map g) ↔ x ∉ cps ∧ FitsAlong size g 0 cps := by
  have hfuel : cps.length < (encodeAll cps ++ 0 :: rest).length := by
    have hle := length_le_encodeAll hcps
    rw [List.length_append, List.length_cons]
    omega
  have hmapped : Scalars (cps.map (caseMap ascii isCased toCase)) := by
    intro c' hc'
    obtain ⟨c, hc, rfl⟩ := List.mem_map.mp hc'
    exact caseMap_scalar hascii (hcps c hc) (hcase c hc)
  have hgs : Scalars (cps.map g) := by
    intro c' hc'
    obtain ⟨c, hc, rfl⟩ := List.mem_map.mp hc'
    exact hscalar c hc
  have hstart : ([] ++ encodeAll cps ++ 0 :: rest).length ≤ size := hsize
  have hrun := caseLoop_encodeAll hascii hcps hcase hstart hfuel
  rw [List.nil_append, List.nil_append, List.length_nil] at hrun
  constructor
  · rintro ⟨str, hstr, hcontent, -⟩
    rcases hrun with ⟨-, hnone⟩ | ⟨rest', hfits, hsome⟩
    · rw [hnone] at hstr
      cases hstr
    · rw [hsome, Option.some.injEq] at hstr
      rw [← hstr, cstr_append (zero_not_mem_encodeAll hmapped), Option.some.injEq] at hcontent
      -- the same encoding, hence the same characters
      have hsame : ∀ c ∈ cps, caseMap ascii isCased toCase c = g c :=
        List.map_inj_left.mp (encodeAll_injective hmapped hgs hcontent)
      exact ⟨fun hx => (hg x).mp (hsame x hx) rfl, hfits.congr hsame⟩
  · rintro ⟨hx, hfits⟩
    have hsame : ∀ c ∈ cps, caseMap ascii isCased toCase c = g c :=
      fun c hc => (hg c).mpr fun heq => hx (heq ▸ hc)
    rcases hrun with ⟨hfull, -⟩ | ⟨rest', -, hsome⟩
    · exact absurd (hfits.congr fun c hc => (hsame c hc).symm) hfull
    · have hnul := zero_not_mem_encodeAll hgs
      rw [List.map_congr_left hsame] at hsome
      exact ⟨_, hsome, cstr_append hnul, (isValidUtf8_iff hnul).mpr ⟨_, hgs, rfl⟩⟩

end loop

section Platform

variable (w : Wctype)

theorem caseMap_lower (c : Nat) :
    caseMap asciiLower w.iswupper w.towlower c = lowerCase w c ↔ c ≠ 0x40 := by
  unfold caseMap lowerCase
  split_ifs with hlt hrange hupper
  · rw [asciiLower_eq c hlt, if_pos (by omega)]
    simp only [true_iff]
    omega
  · rw [asciiLower_eq c hlt]
    split <;> omega
  · simp only [true_iff]
    omega
  · simp only [true_iff]
    omega

theorem caseMap_upper (c : Nat) :
    caseMap asciiUpper w.iswlower w.towupper c = upperCase w c ↔ c ≠ 0x60 := by
  unfold caseMap upperCase
  split_ifs with hlt hrange hlower
  · rw [asciiUpper_eq c hlt, if_pos (by omega)]
    simp only [true_iff]
    omega
  · rw [asciiUpper_eq c hlt]
    split <;> omega
  · simp only [true_iff]
    omega
  · simp only [true_iff]
    omega

theorem lowerCase_scalar {c : Nat} (hc : NonzeroScalar c)
    (h : w.iswupper c = true → NonzeroScalar (w.towlower c)) : NonzeroScalar (lowerCase w c) := by
  unfold lowerCase
  split_ifs with hlt hrange hupper
  · unfold NonzeroScalar unicodeMaxCodepoint
    omega
  · exact hc
  · exact h hupper
  · exact hc

theorem upperCase_scalar {c : Nat} (hc : NonzeroScalar c)
    (h : w.iswlower c = true → NonzeroScalar (w.towupper c)) : NonzeroScalar (upperCase w c) := by
  unfold upperCase
  split_ifs with hlt hrange hlower
  · unfold NonzeroScalar unicodeMaxCodepoint
    omega
  · exact hc
  · exact h hlower
  · exact hc

/-- `utf8_tolower` leaves the string in lower case exactly when it has no `@` and fits its buffer
all the way, and `utf8_toupper` in upper case when it has no backquote. -/
theorem casing_iff {cps : List Nat} (hcps : Scalars cps)
    (hlower : ∀ c ∈ cps, w.iswupper c = true → NonzeroScalar (w.towlower c))
    (hupper : ∀ c ∈ cps, w.iswlower c = true → NonzeroScalar (w.towupper c))
    {rest : List UInt8} {size : Nat} (hsize : (encodeAll cps ++ 0 :: rest).length ≤ size) :
    (LeavesEncoding (utf8Tolower w size (encodeAll cps ++ 0 :: rest)) (cps.map (lowerCase w)) ↔
      0x40 ∉ cps ∧ FitsAlong size (lowerCase w) 0 cps) ∧
    (LeavesEncoding (utf8Toupper w size (encodeAll cps ++ 0 :: rest)) (cps.map (upperCase w)) ↔
      0x60 ∉ cps ∧ FitsAlong size (upperCase w) 0 cps) := by
  constructor
  · exact leavesEncoding_iff asciiMap_lower (caseMap_lower w)
      (fun c hc => lowerCase_scalar w (hcps c hc) (hlower c hc)) hcps hlower hsize
  · exact leavesEncoding_iff asciiMap_upper (caseMap_upper w)
      (fun c hc => upperCase_scalar w (hcps c hc) (hupper c hc)) hcps hupper hsize

end Platform

/-- A platform that knows one letter beside ASCII. -/
def oneAccent : Wctype := ⟨(· == 0xC9), (· == 0xE9), fun _ => 0xE9, fun _ => 0xC9⟩

theorem casing_iff_accent :
    LeavesEncoding (utf8Tolower oneAccent 4 [0x41, 0xC3, 0x89, 0]) [0x61, 0xE9] ∧
      LeavesEncoding (utf8Toupper oneAccent 4 [0x41, 0xC3, 0x89, 0]) [0x41, 0xC9] := by
  have hscalar : NonzeroScalar 0xC9 ∧ NonzeroScalar 0xE9 := by
    simp [NonzeroScalar, unicodeMaxCodepoint]
  have hcps : Scalars [0x41, 0xC9] := by
    simp [Scalars, NonzeroScalar, unicodeMaxCodepoint]
  have hsize : (encodeAll [0x41, 0xC9] ++ 0 :: []).length ≤ 4 := by decide
  have hboth := casing_iff oneAccent hcps (fun _ _ _ => hscalar.2) (fun _ _ _ => hscalar.1) hsize
  have hfits : ∀ f, (∀ k ≤ 2, (0 + (encodeAll (([0x41, 0xC9].take k).map f ++
      [0x41, 0xC9].drop k)).length < 4)) → FitsAlong 4 f 0 [0x41, 0xC9] := fun _ h => h
  exact ⟨hboth.1.mpr ⟨by decide, hfits _ (by decide)⟩, hboth.2.mpr ⟨by decide, hfits _ (by decide)⟩⟩

/-- `@` becomes a backquote. -/
theorem at_sign_changed :
    ¬ LeavesEncoding (utf8Tolower oneAccent 2 [0x40, 0]) ([0x40].map (lowerCase oneAccent)) := by
  rintro ⟨str, hstr, hcontent, -⟩
  have hresult : utf8Tolower oneAccent 2 [0x40, 0] = some [0x60, 0] := by decide +kernel
  obtain rfl : [0x60, 0] = str := Option.some.inj (hresult.symm.trans hstr)
  exact absurd hcontent (by decide +kernel)

end Solidc.Unicode
