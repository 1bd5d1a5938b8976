import Solidc.Lib.Bits
import Solidc.Unicode.Utf8

/-! # UTF-8 agrees with itself

`Spells c l` is the UTF-8 table: the bytes `l` are the shortest form of the
non-zero scalar value `c`. The encoder produces exactly these byte strings, and
each of the other functions takes one of them in a single turn of its loop:

* `spells_iff` — the encoder's output is the table, so a spelling is unique;
* `isValid_spells`, `validByteCount_spells`, `countCodepoints_spells`,
  `toCodepoint_spells`, `charLength_spells` — one turn each;
* `isValid_split` — what the validator accepts starts with a spelling.

`isValidUtf8_encodes` puts them together over whole strings.
-/

namespace Solidc.Unicode

open CLib

/-- A non-zero Unicode scalar value: no surrogate, at most `U+10FFFF`. -/
def NonzeroScalar (c : Nat) : Prop :=
  0 < c ∧ c ≤ unicodeMaxCodepoint ∧ ¬ (0xD800 ≤ c ∧ c ≤ 0xDFFF)

/-- The bytes `ucp_to_utf8` writes before its terminator. -/
def encoding (c : Nat) : List UInt8 := cstrOf (ucpToUtf8 c)

/-- The concatenated encodings of a list of codepoints. -/
def encodeAll (cps : List Nat) : List UInt8 := cps.flatMap encoding

/-- Stepping through a string: decode at the pointer, advance by the length of
the character, stop at the terminator. -/
def stepThroughLoop : Nat → CMem → Option (List Nat)
  | 0, _ => none
  | fuel + 1, p =>
    (p.rd 0).bind fun b =>
    if b = 0 then some []
    else (utf8ToCodepoint p).bind fun c =>
      (utf8CharLength p).bind fun n =>
      (stepThroughLoop fuel (p.drop n)).map (c :: ·)

/-- The codepoints met when stepping through `p`. -/
def stepThrough (p : CMem) : Option (List Nat) :=
  stepThroughLoop p.length p

/-! ## The table -/

/-- A continuation byte, as a range. -/
def Cont (b : UInt8) : Prop := 0x80 ≤ b.toNat ∧ b.toNat < 0xC0

/-- The UTF-8 table: `l` is the shortest form of the scalar value `c`. -/
inductive Spells : Nat → List UInt8 → Prop where
  | one {c : Nat} {b : UInt8} : c = b.toNat → 0 < c → c < 0x80 → Spells c [b]
  | two {c : Nat} {b0 b1 : UInt8} :
      0xC0 ≤ b0.toNat → b0.toNat < 0xE0 → Cont b1 →
      c = (b0.toNat - 0xC0) * 64 + (b1.toNat - 0x80) → 0x80 ≤ c → Spells c [b0, b1]
  | three {c : Nat} {b0 b1 b2 : UInt8} :
      0xE0 ≤ b0.toNat → b0.toNat < 0xF0 → Cont b1 → Cont b2 →
      c = (b0.toNat - 0xE0) * 4096 + (b1.toNat - 0x80) * 64 + (b2.toNat - 0x80) →
      0x800 ≤ c → ¬ (0xD800 ≤ c ∧ c ≤ 0xDFFF) → Spells c [b0, b1, b2]
  | four {c : Nat} {b0 b1 b2 b3 : UInt8} :
      0xF0 ≤ b0.toNat → b0.toNat < 0xF8 → Cont b1 → Cont b2 → Cont b3 →
      c = (b0.toNat - 0xF0) * 262144 + (b1.toNat - 0x80) * 4096 + (b2.toNat - 0x80) * 64 +
        (b3.toNat - 0x80) →
      0x10000 ≤ c → c ≤ unicodeMaxCodepoint → Spells c [b0, b1, b2, b3]

theorem isCont_iff (b : UInt8) : isCont b = true ↔ Cont b := by
  simp only [isCont, Cont, beq_iff_eq]
  exact byte_and_C0 b.toNat b.toNat_lt

/-- A continuation byte is not the terminator. -/
theorem Cont.ne_zero {b : UInt8} (h : Cont b) : b ≠ 0 := by
  rintro rfl
  exact absurd h.1 (by decide)

theorem codepoint2_eq {b0 b1 : UInt8} (h0 : 0xC0 ≤ b0.toNat) (h0' : b0.toNat < 0xE0)
    (h1 : Cont b1) : codepoint2 b0 b1 = (b0.toNat - 0xC0) * 64 + (b1.toNat - 0x80) := by
  have e0 : b0.toNat &&& 0x1F = b0.toNat % 32 := and_mask b0.toNat 5
  have e1 : b1.toNat &&& 0x3F = b1.toNat % 64 := and_mask b1.toNat 6
  have h2 := h1.1
  have h3 := h1.2
  rw [codepoint2, e0, e1, shl_or _ _ 6 (by omega)]
  omega

theorem codepoint3_eq {b0 b1 b2 : UInt8} (h0 : 0xE0 ≤ b0.toNat) (h0' : b0.toNat < 0xF0)
    (h1 : Cont b1) (h2 : Cont b2) :
    codepoint3 b0 b1 b2 =
      (b0.toNat - 0xE0) * 4096 + (b1.toNat - 0x80) * 64 + (b2.toNat - 0x80) := by
  have e0 : b0.toNat &&& 0x0F = b0.toNat % 16 := and_mask b0.toNat 4
  have e1 : b1.toNat &&& 0x3F = b1.toNat % 64 := and_mask b1.toNat 6
  have e2 : b2.toNat &&& 0x3F = b2.toNat % 64 := and_mask b2.toNat 6
  have h3 := h1.1
  have h4 := h1.2
  have h5 := h2.1
  have h6 := h2.2
  rw [codepoint3, e0, e1, e2, Nat.or_assoc, shl_or _ _ 6 (by omega),
    shl_or _ _ 12 (by omega)]
  omega

theorem codepoint4_eq {b0 b1 b2 b3 : UInt8} (h0 : 0xF0 ≤ b0.toNat) (h0' : b0.toNat < 0xF8)
    (h1 : Cont b1) (h2 : Cont b2) (h3 : Cont b3) :
    codepoint4 b0 b1 b2 b3 =
      (b0.toNat - 0xF0) * 262144 + (b1.toNat - 0x80) * 4096 + (b2.toNat - 0x80) * 64 +
        (b3.toNat - 0x80) := by
  have e0 : b0.toNat &&& 0x07 = b0.toNat % 8 := and_mask b0.toNat 3
  have e1 : b1.toNat &&& 0x3F = b1.toNat % 64 := and_mask b1.toNat 6
  have e2 : b2.toNat &&& 0x3F = b2.toNat % 64 := and_mask b2.toNat 6
  have e3 : b3.toNat &&& 0x3F = b3.toNat % 64 := and_mask b3.toNat 6
  have h4 := h1.1
  have h5 := h1.2
  have h6 := h2.1
  have h7 := h2.2
  have h8 := h3.1
  have h9 := h3.2
  rw [codepoint4, e0, e1, e2, e3, Nat.or_assoc, shl_or _ _ 6 (by omega), Nat.or_assoc,
    shl_or _ _ 12 (by omega), shl_or _ _ 18 (by omega)]
  omega

/-! ## The encoder writes the table -/

/-- `UInt8.ofNat` of a lead or continuation pattern. -/
theorem toNat_ofNat_or (hi k : Nat) {x : Nat} (hx : x < 2 ^ k) (hb : hi * 2 ^ k + x < 256) :
    (UInt8.ofNat (hi * 2 ^ k ||| x)).toNat = hi * 2 ^ k + x := by
  have h : hi * 2 ^ k ||| x = hi * 2 ^ k + x := by
    have h' := shl_or hi x k hx
    rwa [Nat.shiftLeft_eq] at h'
  rw [h, UInt8.toNat_ofNat']
  omega

/-- The continuation byte carrying the low six bits of `x`. -/
theorem toNat_contByte (x : Nat) :
    (UInt8.ofNat (0x80 ||| (x &&& 0x3F))).toNat = 0x80 + x % 64 := by
  have h : x &&& 0x3F = x % 64 := and_mask x 6
  rw [h]
  exact toNat_ofNat_or 2 6 (by omega) (by omega)

theorem cont_contByte (x : Nat) : Cont (UInt8.ofNat (0x80 ||| (x &&& 0x3F))) := by
  have h := toNat_contByte x
  constructor <;> omega

theorem ne_zero_of_toNat {b : UInt8} (h : 0 < b.toNat) : b ≠ 0 := by
  rintro rfl
  exact absurd h (by decide)

/-- No byte of a spelling is the terminator. -/
theorem Spells.ne_zero {c : Nat} {l : List UInt8} (h : Spells c l) : ∀ b ∈ l, b ≠ 0 := by
  intro b hb
  cases h with
  | one hc hpos _ =>
    simp only [List.mem_singleton] at hb
    subst hb
    exact ne_zero_of_toNat (by omega)
  | two h0 _ h1 _ _ =>
    simp only [List.mem_cons, List.not_mem_nil, or_false] at hb
    rcases hb with rfl | rfl
    · exact ne_zero_of_toNat (by omega)
    · exact h1.ne_zero
  | three h0 _ h1 h2 _ _ _ =>
    simp only [List.mem_cons, List.not_mem_nil, or_false] at hb
    rcases hb with rfl | rfl | rfl
    · exact ne_zero_of_toNat (by omega)
    · exact h1.ne_zero
    · exact h2.ne_zero
  | four h0 _ h1 h2 h3 _ _ _ =>
    simp only [List.mem_cons, List.not_mem_nil, or_false] at hb
    rcases hb with rfl | rfl | rfl | rfl
    · exact ne_zero_of_toNat (by omega)
    · exact h1.ne_zero
    · exact h2.ne_zero
    · exact h3.ne_zero

/-! The value of a codepoint from the groups of bits in its bytes. -/

theorem two_digits (c : Nat) : c = (0xC0 + c / 64 - 0xC0) * 64 + (0x80 + c % 64 - 0x80) := by
  omega

theorem three_digits (c : Nat) : c = (0xE0 + c / 4096 - 0xE0) * 4096 +
    (0x80 + c / 64 % 64 - 0x80) * 64 + (0x80 + c % 64 - 0x80) := by
  omega

theorem four_digits (c : Nat) : c = (0xF0 + c / 262144 - 0xF0) * 262144 +
    (0x80 + c / 4096 % 64 - 0x80) * 4096 + (0x80 + c / 64 % 64 - 0x80) * 64 +
      (0x80 + c % 64 - 0x80) := by
  omega

/-- The buffer `ucp_to_utf8` fills for a scalar value is a spelling and a NUL. -/
theorem ucpToUtf8_spells {c : Nat} (h : NonzeroScalar c) :
    ∃ l, ucpToUtf8 c = l ++ [0] ∧ Spells c l := by
  obtain ⟨hpos, hmax, hsur⟩ := h
  have hmax' : c ≤ 0x10FFFF := hmax
  have shift : ∀ n, c >>> n = c / 2 ^ n := Nat.shiftRight_eq_div_pow c
  unfold ucpToUtf8
  split_ifs with h1 h2 h3
  · refine ⟨[UInt8.ofNat c], rfl, Spells.one ?_ hpos (by omega)⟩
    rw [UInt8.toNat_ofNat']
    omega
  · have hlt : c / 64 < 32 := by omega
    have hb : (UInt8.ofNat (0xC0 ||| (c >>> 6))).toNat = 0xC0 + c / 64 := by
      rw [shift]
      exact toNat_ofNat_or 6 5 hlt (by omega)
    refine ⟨[_, _], rfl, Spells.two (hb.ge.trans' (Nat.le_add_right _ _)) ?_ (cont_contByte _) ?_
      (Nat.not_le.mp h1)⟩
    · rw [hb]
      exact Nat.add_lt_add_left hlt 0xC0
    · rw [hb, toNat_contByte]
      exact two_digits c
  · have hlt : c / 4096 < 16 := by omega
    have hb : (UInt8.ofNat (0xE0 ||| (c >>> 12))).toNat = 0xE0 + c / 4096 := by
      rw [shift]
      exact toNat_ofNat_or 14 4 hlt (by omega)
    refine ⟨[_, _, _], rfl, Spells.three (hb.ge.trans' (Nat.le_add_right _ _)) ?_
      (cont_contByte _) (cont_contByte _) ?_ (Nat.not_le.mp h2) hsur⟩
    · rw [hb]
      exact Nat.add_lt_add_left hlt 0xE0
    · rw [hb, toNat_contByte, toNat_contByte, shift]
      exact three_digits c
  · have hlt : c / 262144 < 8 := by omega
    have hb : (UInt8.ofNat (0xF0 ||| (c >>> 18))).toNat = 0xF0 + c / 262144 := by
      rw [shift]
      exact toNat_ofNat_or 15 4 (hlt.trans (by decide)) (by omega)
    refine ⟨[_, _, _, _], rfl, Spells.four (hb.ge.trans' (Nat.le_add_right _ _)) ?_
      (cont_contByte _) (cont_contByte _) (cont_contByte _) ?_ (Nat.not_le.mp h3) hmax⟩
    · rw [hb]
      exact Nat.add_lt_add_left hlt 0xF0
    · rw [hb, toNat_contByte, toNat_contByte, toNat_contByte, shift, shift]
      exact four_digits c

/-- A scalar value's encoding spells it. -/
theorem spells_encoding {c : Nat} (h : NonzeroScalar c) : Spells c (encoding c) := by
  obtain ⟨l, hl, hs⟩ := ucpToUtf8_spells h
  rw [encoding, hl, cstrOf_terminated hs.ne_zero]
  exact hs

/-- Only non-zero scalar values are spelled. -/
theorem Spells.scalar {c : Nat} {l : List UInt8} (h : Spells c l) : NonzeroScalar c := by
  unfold NonzeroScalar unicodeMaxCodepoint
  cases h with
  | one hc hpos hlt => omega
  | two h0 h0' h1 hc hlo =>
    have := h1.1
    have := h1.2
    omega
  | three h0 h0' h1 h2 hc hlo hsur =>
    have := h1.1
    have := h1.2
    have := h2.1
    have := h2.2
    omega
  | four h0 h0' h1 h2 h3 hc hlo hhi =>
    have hhi' : c ≤ 0x10FFFF := hhi
    omega

/-- The bytes of a spelling, computed from the value. -/
theorem Spells.toNat_bytes {c : Nat} {l : List UInt8} (h : Spells c l) :
    l.map UInt8.toNat =
      if c < 0x80 then [c]
      else if c < 0x800 then [0xC0 + c / 64, 0x80 + c % 64]
      else if c < 0x10000 then [0xE0 + c / 4096, 0x80 + c / 64 % 64, 0x80 + c % 64]
      else [0xF0 + c / 262144, 0x80 + c / 4096 % 64, 0x80 + c / 64 % 64, 0x80 + c % 64] := by
  cases h with
  | one hc hpos hlt =>
    rw [if_pos hlt, hc]
    rfl
  | two h0 h0' h1 hc hlo =>
    have := h1.1
    have := h1.2
    rw [if_neg (by omega), if_pos (by omega)]
    simp only [List.map_cons, List.map_nil, List.cons.injEq, and_true]
    omega
  | three h0 h0' h1 h2 hc hlo hsur =>
    have := h1.1
    have := h1.2
    have := h2.1
    have := h2.2
    rw [if_neg (by omega), if_neg (by omega), if_pos (by omega)]
    simp only [List.map_cons, List.map_nil, List.cons.injEq, and_true]
    omega
  | four h0 h0' h1 h2 h3 hc hlo hhi =>
    have := h1.1
    have := h1.2
    have := h2.1
    have := h2.2
    have := h3.1
    have := h3.2
    rw [if_neg (by omega), if_neg (by omega), if_neg (by omega)]
    simp only [List.map_cons, List.map_nil, List.cons.injEq, and_true]
    omega

/-- A value has one spelling. -/
theorem Spells.unique {c : Nat} {l l' : List UInt8} (h : Spells c l) (h' : Spells c l') :
    l = l' := by
  have inj : Function.Injective UInt8.toNat := fun _ _ e => UInt8.toNat_inj.mp e
  apply List.map_injective_iff.mpr inj
  rw [h.toNat_bytes, h'.toNat_bytes]

/-- The encoder and the table agree. -/
theorem spells_iff {c : Nat} {l : List UInt8} :
    Spells c l ↔ NonzeroScalar c ∧ encoding c = l := by
  constructor
  · intro h
    exact ⟨h.scalar, (spells_encoding h.scalar).unique h⟩
  · rintro ⟨hc, rfl⟩
    exact spells_encoding hc

/-! ## One turn of each loop -/

/-- The tests every loop makes on a lead byte, by its range. -/
theorem lead_one {b : UInt8} (h : b.toNat < 0x80) : b.toNat &&& 0x80 = 0 :=
  (byte_and_80 _ b.toNat_lt).mpr h

theorem lead_two {b : UInt8} (h : 0xC0 ≤ b.toNat) (h' : b.toNat < 0xE0) :
    ¬ b.toNat &&& 0x80 = 0 ∧ b.toNat &&& 0xE0 = 0xC0 := by
  rw [byte_and_80 _ b.toNat_lt, byte_and_E0 _ b.toNat_lt]
  omega

theorem lead_three {b : UInt8} (h : 0xE0 ≤ b.toNat) (h' : b.toNat < 0xF0) :
    ¬ b.toNat &&& 0x80 = 0 ∧ ¬ b.toNat &&& 0xE0 = 0xC0 ∧ b.toNat &&& 0xF0 = 0xE0 := by
  rw [byte_and_80 _ b.toNat_lt, byte_and_E0 _ b.toNat_lt, byte_and_F0 _ b.toNat_lt]
  omega

theorem lead_four {b : UInt8} (h : 0xF0 ≤ b.toNat) (h' : b.toNat < 0xF8) :
    ¬ b.toNat &&& 0x80 = 0 ∧ ¬ b.toNat &&& 0xE0 = 0xC0 ∧ ¬ b.toNat &&& 0xF0 = 0xE0 ∧
      b.toNat &&& 0xF8 = 0xF0 := by
  rw [byte_and_80 _ b.toNat_lt, byte_and_E0 _ b.toNat_lt, byte_and_F0 _ b.toNat_lt,
    byte_and_F8 _ b.toNat_lt]
  omega

theorem isCont_of {b : UInt8} (h : Cont b) : isCont b = true := (isCont_iff b).mpr h

/-- A lead byte is counted, a continuation byte is not. -/
theorem not_isCont {b : UInt8} (h : b.toNat < 0x80 ∨ 0xC0 ≤ b.toNat) : isCont b = false := by
  rw [Bool.eq_false_iff, ne_eq, isCont_iff]
  intro hc
  have := hc.1
  have := hc.2
  omega

/-- The ranges of a lead byte; the last one starts nothing. -/
theorem lead_cases (b : UInt8) : b.toNat < 0x80 ∨ (0xC0 ≤ b.toNat ∧ b.toNat < 0xE0) ∨
    (0xE0 ≤ b.toNat ∧ b.toNat < 0xF0) ∨ (0xF0 ≤ b.toNat ∧ b.toNat < 0xF8) ∨
    (0x80 ≤ b.toNat ∧ b.toNat < 0xC0 ∨ 0xF8 ≤ b.toNat) := by
  omega

attribute [local simp] isValidUtf8Loop

theorem isValidLoop_one {b : UInt8} (hb : b ≠ 0) (h : b.toNat < 0x80) (fuel : Nat) (p : CMem) :
    isValidUtf8Loop (fuel + 1) (b :: p) = isValidUtf8Loop fuel p := by
  rw [isValidUtf8Loop, rd_cons_zero, Option.bind_some, if_neg hb, if_pos (lead_one h)]
  rfl

theorem isValidLoop_two {b : UInt8} (h : 0xC0 ≤ b.toNat) (h' : b.toNat < 0xE0) (fuel : Nat)
    (p : CMem) : isValidUtf8Loop (fuel + 1) (b :: p) = (p.rd 0).bind fun b1 =>
      if b1 = 0 ∨ !isCont b1 then some false
      else if codepoint2 b b1 < 0x80 then some false
      else isValidUtf8Loop fuel (p.drop 1) := by
  have hlead := lead_two h h'
  rw [isValidUtf8Loop, rd_cons_zero, Option.bind_some, if_neg (ne_zero_of_toNat (by omega)),
    if_neg hlead.1, if_pos hlead.2]
  rfl

theorem isValidLoop_three {b : UInt8} (h : 0xE0 ≤ b.toNat) (h' : b.toNat < 0xF0) (fuel : Nat)
    (p : CMem) : isValidUtf8Loop (fuel + 1) (b :: p) = (p.rd 0).bind fun b1 =>
      if b1 = 0 then some false
      else (p.rd 1).bind fun b2 =>
      if b2 = 0 ∨ !isCont b1 ∨ !isCont b2 then some false
      else if codepoint3 b b1 b2 < 0x800 ∨
          (0xD800 ≤ codepoint3 b b1 b2 ∧ codepoint3 b b1 b2 ≤ 0xDFFF) then some false
      else isValidUtf8Loop fuel (p.drop 2) := by
  have hlead := lead_three h h'
  rw [isValidUtf8Loop, rd_cons_zero, Option.bind_some, if_neg (ne_zero_of_toNat (by omega)),
    if_neg hlead.1, if_neg hlead.2.1, if_pos hlead.2.2]
  rfl

theorem isValidLoop_four {b : UInt8} (h : 0xF0 ≤ b.toNat) (h' : b.toNat < 0xF8) (fuel : Nat)
    (p : CMem) : isValidUtf8Loop (fuel + 1) (b :: p) = (p.rd 0).bind fun b1 =>
      if b1 = 0 then some false
      else (p.rd 1).bind fun b2 =>
      if b2 = 0 then some false
      else (p.rd 2).bind fun b3 =>
      if b3 = 0 ∨ !isCont b1 ∨ !isCont b2 ∨ !isCont b3 then some false
      else if codepoint4 b b1 b2 b3 < 0x10000 ∨
          unicodeMaxCodepoint < codepoint4 b b1 b2 b3 then some false
      else isValidUtf8Loop fuel (p.drop 3) := by
  have hlead := lead_four h h'
  rw [isValidUtf8Loop, rd_cons_zero, Option.bind_some, if_neg (ne_zero_of_toNat (by omega)),
    if_neg hlead.1, if_neg hlead.2.1, if_neg hlead.2.2.1, if_pos hlead.2.2.2]
  rfl

theorem isValidLoop_other {b : UInt8} (h : 0x80 ≤ b.toNat ∧ b.toNat < 0xC0 ∨ 0xF8 ≤ b.toNat)
    (fuel : Nat) (p : CMem) : isValidUtf8Loop (fuel + 1) (b :: p) = some false := by
  have n1 : ¬ b.toNat &&& 0x80 = 0 := by rw [byte_and_80 _ b.toNat_lt]; omega
  have n2 : ¬ b.toNat &&& 0xE0 = 0xC0 := by rw [byte_and_E0 _ b.toNat_lt]; omega
  have n3 : ¬ b.toNat &&& 0xF0 = 0xE0 := by rw [byte_and_F0 _ b.toNat_lt]; omega
  have n4 : ¬ b.toNat &&& 0xF8 = 0xF0 := by rw [byte_and_F8 _ b.toNat_lt]; omega
  rw [isValidUtf8Loop, rd_cons_zero, Option.bind_some, if_neg (ne_zero_of_toNat (by omega)),
    if_neg n1, if_neg n2, if_neg n3, if_neg n4]

/-- The validator passes over a spelling. -/
theorem isValid_spells {c : Nat} {l : List UInt8} (h : Spells c l) (fuel : Nat) (p : CMem) :
    isValidUtf8Loop (fuel + 1) (l ++ p) = isValidUtf8Loop fuel p := by
  cases h with
  | @one b hc hpos hlt =>
    exact isValidLoop_one (ne_zero_of_toNat (by omega)) (by omega) fuel p
  | @two b0 b1 h0 h0' h1 hc hlo =>
    have hlo' : ¬ codepoint2 b0 b1 < 0x80 := by rw [codepoint2_eq h0 h0' h1]; omega
    refine (isValidLoop_two h0 h0' fuel (b1 :: p)).trans ?_
    simp [h1.ne_zero, isCont_of h1, hlo']
  | @three b0 b1 b2 h0 h0' h1 h2 hc hlo hsur =>
    have hok : ¬ (codepoint3 b0 b1 b2 < 0x800 ∨
        (0xD800 ≤ codepoint3 b0 b1 b2 ∧ codepoint3 b0 b1 b2 ≤ 0xDFFF)) := by
      rw [codepoint3_eq h0 h0' h1 h2, ← hc]
      omega
    refine (isValidLoop_three h0 h0' fuel (b1 :: b2 :: p)).trans ?_
    simp only [rd_cons_zero, rd_cons_succ, Option.bind_some, h1.ne_zero, h2.ne_zero,
      isCont_of h1, isCont_of h2, Bool.not_true, Bool.false_eq_true, or_self, if_false, hok,
      List.drop_succ_cons, List.drop_zero]
  | @four b0 b1 b2 b3 h0 h0' h1 h2 h3 hc hlo hhi =>
    have hok : ¬ (codepoint4 b0 b1 b2 b3 < 0x10000 ∨
        unicodeMaxCodepoint < codepoint4 b0 b1 b2 b3) := by
      rw [codepoint4_eq h0 h0' h1 h2 h3, ← hc]
      omega
    refine (isValidLoop_four h0 h0' fuel (b1 :: b2 :: b3 :: p)).trans ?_
    simp only [rd_cons_zero, rd_cons_succ, Option.bind_some, h1.ne_zero, h2.ne_zero,
      h3.ne_zero, isCont_of h1, isCont_of h2, isCont_of h3, Bool.not_true, Bool.false_eq_true,
      or_self, if_false, hok, List.drop_succ_cons, List.drop_zero]

/-- The byte counter counts every byte of a spelling. -/
theorem validByteCount_spells {c : Nat} {l : List UInt8} (h : Spells c l) (fuel : Nat)
    (p : CMem) (count : Nat) :
    validByteCountLoop (fuel + 1) (l ++ p) count =
      validByteCountLoop fuel p (count + l.length) := by
  cases h with
  | @one b hc hpos hlt =>
    have hb : b ≠ 0 := ne_zero_of_toNat (by omega)
    simp [validByteCountLoop, hb, lead_one (b := b) (by omega)]
  | @two b0 b1 h0 h0' h1 hc hlo =>
    have hb : b0 ≠ 0 := ne_zero_of_toNat (by omega)
    simp [validByteCountLoop, hb, lead_two h0 h0', h1.ne_zero, isCont_of h1]
  | @three b0 b1 b2 h0 h0' h1 h2 hc hlo hsur =>
    have hb : b0 ≠ 0 := ne_zero_of_toNat (by omega)
    simp [validByteCountLoop, hb, lead_three h0 h0', h1.ne_zero, h2.ne_zero, isCont_of h1,
      isCont_of h2]
  | @four b0 b1 b2 b3 h0 h0' h1 h2 h3 hc hlo hhi =>
    have hb : b0 ≠ 0 := ne_zero_of_toNat (by omega)
    simp [validByteCountLoop, hb, lead_four h0 h0', h1.ne_zero, h2.ne_zero, h3.ne_zero,
      isCont_of h1, isCont_of h2, isCont_of h3]

/-- The codepoint counter takes one turn a byte and counts the first of them. -/
theorem countCodepoints_spells {c : Nat} {l : List UInt8} (h : Spells c l) (fuel : Nat)
    (p : CMem) (count : Nat) :
    countCodepointsLoop (fuel + l.length) (l ++ p) count =
      countCodepointsLoop fuel p (count + 1) := by
  cases h with
  | @one b hc hpos hlt =>
    have hb : b ≠ 0 := ne_zero_of_toNat (by omega)
    simp [countCodepointsLoop, hb, not_isCont (b := b) (by omega)]
  | @two b0 b1 h0 h0' h1 hc hlo =>
    have hb : b0 ≠ 0 := ne_zero_of_toNat (by omega)
    simp [countCodepointsLoop, hb, not_isCont (b := b0) (by omega), h1.ne_zero, isCont_of h1]
  | @three b0 b1 b2 h0 h0' h1 h2 hc hlo hsur =>
    have hb : b0 ≠ 0 := ne_zero_of_toNat (by omega)
    simp [countCodepointsLoop, hb, not_isCont (b := b0) (by omega), h1.ne_zero, h2.ne_zero,
      isCont_of h1, isCont_of h2]
  | @four b0 b1 b2 b3 h0 h0' h1 h2 h3 hc hlo hhi =>
    have hb : b0 ≠ 0 := ne_zero_of_toNat (by omega)
    simp [countCodepointsLoop, hb, not_isCont (b := b0) (by omega), h1.ne_zero, h2.ne_zero,
      h3.ne_zero, isCont_of h1, isCont_of h2, isCont_of h3]

/-- The decoder recovers the value, reading the spelling only. -/
theorem toCodepoint_spells {c : Nat} {l : List UInt8} (h : Spells c l) (p : CMem) :
    utf8ToCodepoint (l ++ p) = some c := by
  cases h with
  | @one b hc hpos hlt =>
    simp [utf8ToCodepoint, lead_one (b := b) (by omega), hc]
  | @two b0 b1 h0 h0' h1 hc hlo =>
    have hcp := codepoint2_eq h0 h0' h1
    simp [utf8ToCodepoint, lead_two h0 h0', isCont_of h1, hcp, ← hc]
    omega
  | @three b0 b1 b2 h0 h0' h1 h2 hc hlo hsur =>
    have hcp := codepoint3_eq h0 h0' h1 h2
    rw [← hc] at hcp
    have hlo' : ¬ c < 0x800 := by omega
    simp only [utf8ToCodepoint, List.cons_append, List.nil_append, rd_cons_zero, rd_cons_succ,
      Option.bind_some, if_false, lead_three h0 h0', if_true, isCont_of h1, isCont_of h2, hcp,
      hlo', hsur]
  | @four b0 b1 b2 b3 h0 h0' h1 h2 h3 hc hlo hhi =>
    have hcp := codepoint4_eq h0 h0' h1 h2 h3
    rw [← hc] at hcp
    have hlo' : ¬ c < 0x10000 := by omega
    have hhi' : ¬ unicodeMaxCodepoint < c := by omega
    simp only [utf8ToCodepoint, List.cons_append, List.nil_append, rd_cons_zero, rd_cons_succ,
      Option.bind_some, if_false, lead_four h0 h0', if_true, isCont_of h1, isCont_of h2,
      isCont_of h3, hcp, hlo', hhi']

/-- The length table gives the length of the spelling. -/
theorem charLength_spells {c : Nat} {l : List UInt8} (h : Spells c l) (p : CMem) :
    utf8CharLength (l ++ p) = some l.length := by
  cases h with
  | @one b hc hpos hlt =>
    have h1 : b.toNat ≤ 0x7F := by omega
    simp [utf8CharLength, h1]
  | @two b0 b1 h0 h0' h1 hc hlo =>
    have n1 : ¬ b0.toNat ≤ 0x7F := by omega
    have y : b0.toNat ≤ 0xDF := by omega
    simp [utf8CharLength, n1, y]
  | @three b0 b1 b2 h0 h0' h1 h2 hc hlo hsur =>
    have n1 : ¬ b0.toNat ≤ 0x7F := by omega
    have n2 : ¬ b0.toNat ≤ 0xDF := by omega
    have y : b0.toNat ≤ 0xEF := by omega
    simp [utf8CharLength, n1, n2, y]
  | @four b0 b1 b2 b3 h0 h0' h1 h2 h3 hc hlo hhi =>
    have n1 : ¬ b0.toNat ≤ 0x7F := by omega
    have n2 : ¬ b0.toNat ≤ 0xDF := by omega
    have n3 : ¬ b0.toNat ≤ 0xEF := by omega
    have y : b0.toNat ≤ 0xF7 := by omega
    simp [utf8CharLength, n1, n2, n3, y]

/-! ## What the validator accepts -/

/-- A 2-byte lead either stops the validator or starts a spelling. -/
theorem isValid_two {b0 : UInt8} {s : List UInt8} (h0 : 0xC0 ≤ b0.toNat)
    (h0' : b0.toNat < 0xE0) (fuel : Nat) :
    isValidUtf8Loop (fuel + 1) (b0 :: s ++ [0]) = some false ∨
      ∃ c l s', b0 :: s = l ++ s' ∧ Spells c l := by
  rw [List.cons_append, isValidLoop_two h0 h0']
  cases s with
  | nil => exact .inl rfl
  | cons b1 s =>
    by_cases h1 : Cont b1
    · by_cases hlo : codepoint2 b0 b1 < 0x80
      · left; simp [hlo]
      · rw [codepoint2_eq h0 h0' h1] at hlo
        exact .inr ⟨_, [b0, b1], s, rfl, Spells.two h0 h0' h1 rfl (by omega)⟩
    · rw [← isCont_iff, Bool.not_eq_true] at h1
      left; simp [h1]

/-- A 3-byte lead either stops the validator or starts a spelling. -/
theorem isValid_three {b0 : UInt8} {s : List UInt8} (h0 : 0xE0 ≤ b0.toNat)
    (h0' : b0.toNat < 0xF0) (fuel : Nat) :
    isValidUtf8Loop (fuel + 1) (b0 :: s ++ [0]) = some false ∨
      ∃ c l s', b0 :: s = l ++ s' ∧ Spells c l := by
  rw [List.cons_append, isValidLoop_three h0 h0']
  match s with
  | [] => exact .inl rfl
  | [b1] => left; simp
  | b1 :: b2 :: s =>
    simp only [List.cons_append, rd_cons_zero, rd_cons_succ, Option.bind_some]
    by_cases h12 : Cont b1 ∧ Cont b2
    · obtain ⟨h1, h2⟩ := h12
      by_cases hbad : codepoint3 b0 b1 b2 < 0x800 ∨
          (0xD800 ≤ codepoint3 b0 b1 b2 ∧ codepoint3 b0 b1 b2 ≤ 0xDFFF)
      · left
        rw [if_neg h1.ne_zero, if_pos hbad, ite_self]
      · rw [codepoint3_eq h0 h0' h1 h2] at hbad
        exact .inr ⟨_, [b0, b1, b2], s, rfl,
          Spells.three h0 h0' h1 h2 rfl (by omega) (by omega)⟩
    · left
      rw [← isCont_iff, ← isCont_iff] at h12
      rw [if_pos (by grind : b2 = 0 ∨ !isCont b1 ∨ !isCont b2), ite_self]

/-- A 4-byte lead either stops the validator or starts a spelling. -/
theorem isValid_four {b0 : UInt8} {s : List UInt8} (h0 : 0xF0 ≤ b0.toNat)
    (h0' : b0.toNat < 0xF8) (fuel : Nat) :
    isValidUtf8Loop (fuel + 1) (b0 :: s ++ [0]) = some false ∨
      ∃ c l s', b0 :: s = l ++ s' ∧ Spells c l := by
  rw [List.cons_append, isValidLoop_four h0 h0']
  match s with
  | [] => exact .inl rfl
  | [b1] => left; simp
  | [b1, b2] => left; simp
  | b1 :: b2 :: b3 :: s =>
    simp only [List.cons_append, rd_cons_zero, rd_cons_succ, Option.bind_some]
    by_cases h123 : Cont b1 ∧ Cont b2 ∧ Cont b3
    · obtain ⟨h1, h2, h3⟩ := h123
      by_cases hbad : codepoint4 b0 b1 b2 b3 < 0x10000 ∨
          unicodeMaxCodepoint < codepoint4 b0 b1 b2 b3
      · left
        rw [if_neg h1.ne_zero, if_neg h2.ne_zero, if_pos hbad, ite_self]
      · rw [codepoint4_eq h0 h0' h1 h2 h3] at hbad
        exact .inr ⟨_, [b0, b1, b2, b3], s, rfl,
          Spells.four h0 h0' h1 h2 h3 rfl (by omega) (by omega)⟩
    · left
      rw [← isCont_iff, ← isCont_iff, ← isCont_iff] at h123
      rw [if_pos (by grind : b3 = 0 ∨ !isCont b1 ∨ !isCont b2 ∨ !isCont b3), ite_self, ite_self]

/-- A non-empty string either stops the validator at once or starts with a
spelling: there is no third way out of a turn of its loop. -/
theorem isValid_split {b0 : UInt8} {s : List UInt8} (hb : b0 ≠ 0) (fuel : Nat) :
    isValidUtf8Loop (fuel + 1) (b0 :: s ++ [0]) = some false ∨
      ∃ c l s', b0 :: s = l ++ s' ∧ Spells c l := by
  have hpos : 0 < b0.toNat := by
    rcases Nat.eq_zero_or_pos b0.toNat with h | h
    · exact absurd (UInt8.toNat_inj.mp h) hb
    · exact h
  rcases lead_cases b0 with h1 | ⟨h2, h2'⟩ | ⟨h3, h3'⟩ | ⟨h4, h4'⟩ | hother
  · exact .inr ⟨_, [b0], s, rfl, Spells.one rfl hpos h1⟩
  · exact isValid_two h2 h2' fuel
  · exact isValid_three h3 h3' fuel
  · exact isValid_four h4 h4' fuel
  · left
    rw [List.cons_append, isValidLoop_other hother]

/-! ## Whole strings -/

theorem Spells.length_pos {c : Nat} {l : List UInt8} (h : Spells c l) : 0 < l.length := by
  cases h <;> simp

@[simp] theorem encodeAll_nil : encodeAll [] = [] := rfl

@[simp] theorem encodeAll_cons (c : Nat) (cps : List Nat) :
    encodeAll (c :: cps) = encoding c ++ encodeAll cps := rfl

/-- Each codepoint takes at least one byte. -/
theorem length_le_encodeAll {cps : List Nat} (h : ∀ c ∈ cps, NonzeroScalar c) :
    cps.length ≤ (encodeAll cps).length := by
  induction cps with
  | nil => simp
  | cons c cps ih =>
    have hc := (spells_encoding (h c (by simp))).length_pos
    have hi := ih fun x hx => h x (by simp [hx])
    simp only [List.length_cons, encodeAll_cons, List.length_append]
    omega

/-- The first value of a concatenation is the one its first bytes spell. -/
theorem spells_head {c c' : Nat} {l p p' : List UInt8} (h : Spells c l)
    (h' : NonzeroScalar c') (he : encoding c' ++ p' = l ++ p) : c' = c ∧ p' = p := by
  have hd := toCodepoint_spells h p
  have hd' := toCodepoint_spells (spells_encoding h') p'
  rw [he] at hd'
  have hcc : c' = c := Option.some.inj (hd'.symm.trans hd)
  subst hcc
  have hl : encoding c' = l := (spells_encoding h').unique h
  rw [hl] at he
  exact ⟨rfl, List.append_cancel_left he⟩

/-- The validator always returns, and decides whether the string is a
concatenation of encodings. The induction is on the fuel, which no run uses up. -/
theorem isValidLoop_iff (fuel : Nat) (s : List UInt8) (h0 : (0 : UInt8) ∉ s)
    (hf : s.length < fuel) :
    ∃ b, isValidUtf8Loop fuel (s ++ [0]) = some b ∧
      (b = true ↔ ∃ cps, (∀ c ∈ cps, NonzeroScalar c) ∧ encodeAll cps = s) := by
  induction fuel generalizing s with
  | zero => omega
  | succ fuel ih =>
    cases s with
    | nil =>
      refine ⟨true, by simp, ?_⟩
      simp only [true_iff]
      exact ⟨[], by simp, rfl⟩
    | cons b0 s =>
      have hb : b0 ≠ 0 := fun h => h0 (by simp [h])
      rcases isValid_split (s := s) hb fuel with hfalse | ⟨c, l, s', hs, hsp⟩
      · refine ⟨false, hfalse, ?_⟩
        simp only [Bool.false_eq_true, false_iff]
        rintro ⟨cps, hcps, he⟩
        -- a string of encodings is never stopped: its first one is a spelling
        cases cps with
        | nil => simp at he
        | cons c cps =>
          have hc := spells_encoding (hcps c (by simp))
          rw [encodeAll_cons] at he
          have hlen : (encoding c).length + (encodeAll cps).length = s.length + 1 := by
            rw [← List.length_append, he, List.length_cons]
          have hnul : (0 : UInt8) ∉ encodeAll cps := by
            intro hx
            apply h0
            rw [← he]
            exact List.mem_append_right _ hx
          have hpos := hc.length_pos
          simp only [List.length_cons] at hf
          obtain ⟨b, hb', hiff⟩ := ih (encodeAll cps) hnul (by omega)
          have hstep := isValid_spells hc fuel (encodeAll cps ++ [0])
          rw [← List.append_assoc, he, hfalse, hb'] at hstep
          have hbt : b = true := hiff.mpr ⟨cps, fun x hx => hcps x (by simp [hx]), rfl⟩
          rw [hbt] at hstep
          cases hstep
      · have hlen : s.length + 1 = l.length + s'.length := by
          rw [← List.length_append, ← hs, List.length_cons]
        have hpos := hsp.length_pos
        simp only [List.length_cons] at hf
        have hnul : (0 : UInt8) ∉ s' := by
          intro hx
          apply h0
          rw [hs]
          exact List.mem_append_right _ hx
        obtain ⟨b, hb', hiff⟩ := ih s' hnul (by omega)
        refine ⟨b, ?_, hiff.trans ⟨?_, ?_⟩⟩
        · rw [hs, List.append_assoc, isValid_spells hsp, hb']
        · rintro ⟨cps, hcps, he⟩
          obtain ⟨hc, hl⟩ := spells_iff.mp hsp
          refine ⟨c :: cps, ?_, by rw [encodeAll_cons, hl, he, hs]⟩
          intro x hx
          rcases List.mem_cons.mp hx with rfl | hx
          · exact hc
          · exact hcps x hx
        · rintro ⟨cps, hcps, he⟩
          cases cps with
          | nil => simp at he
          | cons c' cps =>
            rw [hs, encodeAll_cons] at he
            obtain ⟨-, hp⟩ := spells_head hsp (hcps c' (by simp)) he
            exact ⟨cps, fun x hx => hcps x (by simp [hx]), hp⟩

/-- Stepping through a concatenation of encodings meets its codepoints. -/
theorem stepThroughLoop_encodeAll {cps : List Nat} (h : ∀ c ∈ cps, NonzeroScalar c)
    (fuel : Nat) (hf : cps.length < fuel) :
    stepThroughLoop fuel (encodeAll cps ++ [0]) = some cps := by
  induction cps generalizing fuel with
  | nil =>
    obtain ⟨fuel, rfl⟩ := Nat.exists_eq_succ_of_ne_zero (Nat.ne_of_gt hf)
    simp [stepThroughLoop]
  | cons c cps ih =>
    obtain ⟨fuel, rfl⟩ := Nat.exists_eq_succ_of_ne_zero (Nat.ne_of_gt (Nat.zero_lt_of_lt hf))
    have hc := spells_encoding (h c (by simp))
    have hrest := ih (fun x hx => h x (by simp [hx])) fuel (by simpa using hf)
    obtain ⟨b, l, hl⟩ : ∃ b l, encoding c = b :: l :=
      List.exists_cons_of_length_pos hc.length_pos
    have hb : b ≠ 0 := hc.ne_zero b (by simp [hl])
    have hd := toCodepoint_spells hc (encodeAll cps ++ [0])
    have hn := charLength_spells hc (encodeAll cps ++ [0])
    rw [encodeAll_cons, List.append_assoc, stepThroughLoop, hd, hn]
    simp only [Option.bind_some, List.drop_left, hrest, Option.map_some]
    rw [hl]
    simp [hb]

/-- Two lists of codepoints with the same encoding are the same list. -/
theorem encodeAll_injective {cps cps' : List Nat} (h : ∀ c ∈ cps, NonzeroScalar c)
    (h' : ∀ c ∈ cps', NonzeroScalar c) (he : encodeAll cps = encodeAll cps') : cps = cps' := by
  have hl : cps.length < cps.length + cps'.length + 1 := by omega
  have hl' : cps'.length < cps.length + cps'.length + 1 := by omega
  have e := stepThroughLoop_encodeAll h _ hl
  have e' := stepThroughLoop_encodeAll h' _ hl'
  rw [he] at e
  exact Option.some.inj (e.symm.trans e')

theorem validByteCountLoop_encodeAll {cps : List Nat} (h : ∀ c ∈ cps, NonzeroScalar c)
    (fuel : Nat) (hf : cps.length < fuel) (count : Nat) :
    validByteCountLoop fuel (encodeAll cps ++ [0]) count =
      some (count + (encodeAll cps).length) := by
  induction cps generalizing fuel count with
  | nil =>
    obtain ⟨fuel, rfl⟩ := Nat.exists_eq_succ_of_ne_zero (Nat.ne_of_gt hf)
    simp [validByteCountLoop]
  | cons c cps ih =>
    obtain ⟨fuel, rfl⟩ := Nat.exists_eq_succ_of_ne_zero (Nat.ne_of_gt (Nat.zero_lt_of_lt hf))
    have hc := spells_encoding (h c (by simp))
    rw [encodeAll_cons, List.append_assoc, validByteCount_spells hc,
      ih (fun x hx => h x (by simp [hx])) fuel (by simpa using hf), List.length_append,
      Nat.add_assoc]

theorem countCodepointsLoop_encodeAll {cps : List Nat} (h : ∀ c ∈ cps, NonzeroScalar c)
    (fuel count : Nat) :
    countCodepointsLoop ((encodeAll cps).length + (fuel + 1)) (encodeAll cps ++ [0]) count =
      some (count + cps.length) := by
  induction cps generalizing count with
  | nil => simp [countCodepointsLoop]
  | cons c cps ih =>
    have hc := spells_encoding (h c (by simp))
    have hlen : (encodeAll (c :: cps)).length + (fuel + 1) =
        (encodeAll cps).length + (fuel + 1) + (encoding c).length := by
      rw [encodeAll_cons, List.length_append]
      omega
    rw [hlen, encodeAll_cons, List.append_assoc, countCodepoints_spells hc,
      ih (fun x hx => h x (by simp [hx])), List.length_cons]
    congr 1
    omega

/-- The five functions agree on every string: the validator returns, and says
yes exactly on the concatenations of encodings of non-zero scalar values; such a
list is then unique, stepping through the string recovers it without reading past
the terminator, and the counters give its length and `strlen`. -/
theorem isValidUtf8_encodes (s : CString) :
    (∃ b, isValidUtf8 s.mem = some b) ∧
    (isValidUtf8 s.mem = some true ↔
      ∃ cps, (∀ c ∈ cps, NonzeroScalar c) ∧ encodeAll cps = s.bytes) ∧
    ∀ cps, (∀ c ∈ cps, NonzeroScalar c) → encodeAll cps = s.bytes →
      (∀ cps', (∀ c ∈ cps', NonzeroScalar c) → encodeAll cps' = s.bytes → cps' = cps) ∧
      stepThrough s.mem = some cps ∧
      utf8CountCodepoints s.mem = some cps.length ∧
      utf8ValidByteCount s.mem = some s.len := by
  have hmem : s.mem.length = s.bytes.length + 1 := by simp [CString.mem]
  obtain ⟨b, hb, hiff⟩ := isValidLoop_iff s.mem.length s.bytes s.nulFree (by omega)
  have hv : isValidUtf8 s.mem = some b := hb
  refine ⟨⟨b, hv⟩, ?_, ?_⟩
  · rw [hv, Option.some.injEq]
    exact hiff
  · intro cps hcps he
    have hle := length_le_encodeAll hcps
    rw [he] at hle
    refine ⟨fun cps' h' he' => encodeAll_injective h' hcps (he'.trans he.symm), ?_, ?_, ?_⟩
    · have h := stepThroughLoop_encodeAll hcps (s.bytes.length + 1) (by omega)
      rw [he] at h
      rw [stepThrough, hmem, CString.mem, h]
    · have h := countCodepointsLoop_encodeAll hcps 0 0
      rw [he] at h
      rw [utf8CountCodepoints, hmem, CString.mem, h, Nat.zero_add]
    · have h := validByteCountLoop_encodeAll hcps (s.bytes.length + 1) (by omega) 0
      rw [he] at h
      rw [utf8ValidByteCount, hmem, CString.mem, h, Nat.zero_add, CString.len]

end Solidc.Unicode
