import Solidc.Unicode.Casing
import Mathlib.Tactic.IntervalCases

/-! # Stepping by announced lengths

`utf8_tolower`, `utf8_toupper` and `utf8_print_codepoints` advance by what `utf8_char_length` says
of the byte at the cursor, whatever follows it. The memory of a string ends with its terminator
here, so a function that returns has not touched a byte behind it. `LeadsFit` says of a string
that the lengths lead to its end or to a byte without a length.
-/

namespace Solidc.Unicode

open CLib

/-- The loop of `utf8_print_codepoints`: the codepoints printed. -/
def printCodepointsLoop : Nat → CMem → Nat → Option (List Nat)
  | 0, _, _ => none
  | fuel + 1, data, i =>
    (data.rd i).bind fun b =>
    if b = 0 then some []
    else
      (utf8ToCodepoint (data.drop i)).bind fun codepoint =>
      (utf8CharLength (data.drop i)).bind fun len =>
      if len = 0 then some [codepoint]
      else (printCodepointsLoop fuel data (i + len)).map (codepoint :: ·)

/-- `utf8_print_codepoints`. -/
def utf8PrintCodepoints (data : CMem) : Option (List Nat) :=
  printCodepointsLoop data.length data 0

/-- From the beginning on, every announced length stays within the string. -/
inductive LeadsFit : List UInt8 → Prop
  | nil : LeadsFit []
  | stop {b : UInt8} {t : List UInt8} : charLen b = 0 → LeadsFit (b :: t)
  | next {b : UInt8} {t : List UInt8} : charLen b ≠ 0 → charLen b ≤ (b :: t).length →
      LeadsFit ((b :: t).drop (charLen b)) → LeadsFit (b :: t)

/-- A character of the string whose case is changed keeps the length that its first byte
announces. -/
def KeepsWidth (isCased : Nat → Bool) (toCase : Nat → Nat) (s : List UInt8) : Prop :=
  ∀ j < s.length, ∀ c, utf8ToCodepoint (s.drop j ++ [0]) = some c → isCased c = true →
    NonzeroScalar (toCase c) ∧ utf8CharLength (s.drop j ++ [0]) = some (encoding (toCase c)).length

/-- The three functions touch no byte behind the terminator. -/
structure ScansInside (w : Wctype) (d : CString) : Prop where
  tolower : utf8Tolower w d.mem.length d.mem ≠ none
  toupper : utf8Toupper w d.mem.length d.mem ≠ none
  print : utf8PrintCodepoints d.mem ≠ none

section steps

variable {b : UInt8} {t s front : List UInt8} {isCased : Nat → Bool} {toCase : Nat → Nat}
  {ascii : UInt8 → UInt8} {size : Nat}

/-- Behind a byte that is not the terminator there is another one. -/
theorem rd_next {k : Nat} {u : UInt8} (h : CMem.rd (s ++ [0]) k = some u) (hu : u ≠ 0) :
    ∃ u', CMem.rd (s ++ [0]) (k + 1) = some u' := by
  have hk : k < (s ++ [0]).length := (List.getElem?_eq_some_iff.mp h).1
  rw [List.length_append, List.length_singleton] at hk
  rcases Nat.lt_or_eq_of_le (Nat.le_of_lt_succ hk) with hlt | rfl
  · have hin : k + 1 < (s ++ [0]).length := by
      rw [List.length_append, List.length_singleton]
      omega
    exact ⟨_, List.getElem?_eq_getElem hin⟩
  · have hlast := rd_front s [0]
    rw [h, rd_cons_zero, Option.some.injEq] at hlast
    exact absurd hlast hu

/-- The decoder reads the next byte, and goes on if this one is a continuation. -/
theorem read_cont {k : Nat} {u : UInt8} {f : UInt8 → Option Nat}
    (h : CMem.rd (s ++ [0]) k = some u) (hu : u ≠ 0)
    (hf : ∀ u', CMem.rd (s ++ [0]) (k + 1) = some u' → u' ≠ 0 → ∃ c, f u' = some c) :
    ∃ c, ((CMem.rd (s ++ [0]) (k + 1)).bind fun u' =>
      if isCont u' then f u' else some replacementCharacter) = some c := by
  obtain ⟨u', hread⟩ := rd_next h hu
  rw [hread, Option.bind_some]
  split
  · next hcont => exact hf u' hread ((isCont_iff u').mp hcont).ne_zero
  · exact ⟨_, rfl⟩

/-- The decoder stops at the terminator. -/
theorem toCodepoint_inside (h0 : 0 ∉ b :: t) : ∃ c, utf8ToCodepoint (b :: t ++ [0]) = some c := by
  have hb : b ≠ 0 := fun h => h0 (h ▸ List.mem_cons_self)
  have hread : CMem.rd (b :: t ++ [0]) 0 = some b := rfl
  rw [utf8ToCodepoint, hread, Option.bind_some]
  by_cases h1 : b.toNat &&& 0x80 = 0
  · exact ⟨_, if_pos h1⟩
  by_cases h2 : b.toNat &&& 0xE0 = 0xC0
  · rw [if_neg h1, if_pos h2]
    refine read_cont hread hb fun u1 h1 hu1 => ?_
    split_ifs <;> exact ⟨_, rfl⟩
  by_cases h3 : b.toNat &&& 0xF0 = 0xE0
  · rw [if_neg h1, if_neg h2, if_pos h3]
    refine read_cont hread hb fun u1 h1 hu1 => ?_
    refine read_cont h1 hu1 fun u2 h2 hu2 => ?_
    split_ifs <;> exact ⟨_, rfl⟩
  by_cases h4 : b.toNat &&& 0xF8 = 0xF0
  · rw [if_neg h1, if_neg h2, if_neg h3, if_pos h4]
    refine read_cont hread hb fun u1 h1 hu1 => ?_
    refine read_cont h1 hu1 fun u2 h2 hu2 => ?_
    refine read_cont h2 hu2 fun u3 h3 hu3 => ?_
    split_ifs <;> exact ⟨_, rfl⟩
  · rw [if_neg h1, if_neg h2, if_neg h3, if_neg h4]
    exact ⟨_, rfl⟩

theorem charLen_ascii (h : b.toNat < 0x80) : charLen b = 1 := if_pos (by omega)

theorem leadsFit_iff (hpos : charLen b ≠ 0) : LeadsFit (b :: t) ↔
    charLen b ≤ (b :: t).length ∧ LeadsFit ((b :: t).drop (charLen b)) := by
  constructor
  · intro h
    cases h with
    | stop hzero => exact absurd hzero hpos
    | next _ hle hrest => exact ⟨hle, hrest⟩
  · intro h
    exact .next hpos h.1 h.2

theorem KeepsWidth.drop (h : KeepsWidth isCased toCase s) (k : Nat) :
    KeepsWidth isCased toCase (s.drop k) := by
  intro j hj c
  rw [List.drop_drop]
  rw [List.length_drop] at hj
  exact h (k + j) (by omega) c

/-- A cursor behind the memory cannot be read at. -/
theorem caseLoop_outside {str : CMem} {i : Nat} (h : str.length ≤ i) (fuel : Nat) :
    caseLoop size ascii isCased toCase fuel str i = none := by
  cases fuel with
  | zero => rfl
  | succ fuel =>
    have hread : CMem.rd str i = none := List.getElem?_eq_none h
    rw [caseLoop, hread, Option.bind_none]

theorem printCodepointsLoop_outside {data : CMem} {i : Nat} (h : data.length ≤ i) (fuel : Nat) :
    printCodepointsLoop fuel data i = none := by
  cases fuel with
  | zero => rfl
  | succ fuel =>
    have hread : CMem.rd data i = none := List.getElem?_eq_none h
    rw [printCodepointsLoop, hread, Option.bind_none]

/-! ## The loops -/

/-- The printing loop returns from a cursor behind `front` when the lengths fit in the rest. -/
theorem printCodepointsLoop_inside {fuel : Nat} (h0 : 0 ∉ s) (hfuel : s.length < fuel) :
    printCodepointsLoop fuel (front ++ (s ++ [0])) front.length ≠ none ↔ LeadsFit s := by
  induction fuel generalizing front s with
  | zero => omega
  | succ fuel ih =>
    rw [printCodepointsLoop, rd_front, List.drop_left]
    cases s with
    | nil => simp [LeadsFit.nil]
    | cons b t =>
      have hb : b ≠ 0 := fun h => h0 (h ▸ List.mem_cons_self)
      obtain ⟨c, hc⟩ := toCodepoint_inside h0
      rw [List.cons_append, rd_cons_zero, Option.bind_some, if_neg hb, ← List.cons_append, hc,
        Option.bind_some, List.cons_append, utf8CharLength_cons, Option.bind_some]
      by_cases hzero : charLen b = 0
      · simp [hzero, LeadsFit.stop hzero]
      rw [if_neg hzero, leadsFit_iff hzero, ne_eq, Option.map_eq_none_iff, ← ne_eq,
        ← List.cons_append]
      by_cases hin : charLen b ≤ (b :: t).length
      · -- the cursor passes over a piece of the string
        have hsplit : front ++ (b :: t ++ [0]) = (front ++ (b :: t).take (charLen b)) ++
            ((b :: t).drop (charLen b) ++ [0]) := by
          rw [List.append_assoc, ← List.append_assoc ((b :: t).take (charLen b)),
            List.take_append_drop]
        have hcursor : front.length + charLen b = (front ++ (b :: t).take (charLen b)).length := by
          rw [List.length_append, List.length_take, Nat.min_eq_left hin]
        rw [hsplit, hcursor, ih (not_mem_drop h0 _) (by
          rw [List.length_drop]
          rw [List.length_cons] at hfuel ⊢
          omega)]
        exact (and_iff_right hin).symm
      · -- it leaves the string, or stands behind its terminator
        have hout : printCodepointsLoop fuel (front ++ (b :: t ++ [0]))
            (front.length + charLen b) = none := by
          apply printCodepointsLoop_outside
          simp only [List.length_append, List.length_cons, List.length_nil] at hin ⊢
          omega
        rw [hout]
        exact ⟨fun h => absurd rfl h, fun h => absurd h.1 hin⟩

/-- One turn on a character that has a length: the piece that it announces is replaced by `new`,
of the same length, or it reaches behind the string, and so does the next read. -/
theorem caseLoop_turn (ascii : UInt8 → UInt8) (h0 : 0 ∉ b :: t)
    (hkeep : KeepsWidth isCased toCase (b :: t))
    (hsize : (front ++ (b :: t ++ [0])).length = size) (hpos : charLen b ≠ 0) (fuel : Nat) :
    (charLen b ≤ (b :: t).length ∧ ∃ new : List UInt8, new.length = charLen b ∧
      caseLoop size ascii isCased toCase (fuel + 1) (front ++ (b :: t ++ [0])) front.length =
        caseLoop size ascii isCased toCase fuel
          (front ++ (new ++ ((b :: t).drop (charLen b) ++ [0]))) (front.length + charLen b)) ∨
    (¬ charLen b ≤ (b :: t).length ∧
      caseLoop size ascii isCased toCase (fuel + 1) (front ++ (b :: t ++ [0])) front.length =
        none) := by
  have hb : b ≠ 0 := fun h => h0 (h ▸ List.mem_cons_self)
  have hlen := hsize
  simp only [List.length_append, List.length_cons, List.length_nil] at hlen
  rw [caseLoop, rd_front, List.drop_left, List.cons_append, rd_cons_zero, Option.bind_some,
    if_neg hb, ← List.cons_append]
  by_cases hbyte : b.toNat < 0x80
  · have hone := charLen_ascii hbyte
    have hpoke : poke size (front ++ (b :: t ++ [0])) front.length [ascii b] =
        some (front ++ ([ascii b] ++ (t ++ [0]))) := by
      rw [poke_append (by rw [List.length_singleton]; omega)]
      rfl
    refine .inl ⟨by rw [hone, List.length_cons]; omega, [ascii b], hone.symm, ?_⟩
    rw [if_pos hbyte, hpoke, Option.bind_some, hone]
    rfl
  obtain ⟨c, hc⟩ := toCodepoint_inside h0
  have hlead : utf8CharLength (b :: t ++ [0]) = some (charLen b) := utf8CharLength_cons b _
  rw [if_neg hbyte, hc, Option.bind_some, hlead, Option.bind_some, if_neg hpos]
  by_cases hcased : isCased c = true
  · -- the character is overwritten by one of the announced length
    obtain ⟨hscalar, hwidth⟩ := hkeep 0 (Nat.succ_pos _) c hc hcased
    rw [List.drop_zero, hlead, Option.some.injEq] at hwidth
    have hutf8 : peek (ucpToUtf8 (toCase c)) 0 (charLen b) = some (encoding (toCase c)) := by
      rw [ucpToUtf8_eq hscalar, hwidth, peek_eq (by simp), List.drop_zero, List.take_left]
    have hsame : ∀ str i, shiftTail size str i (charLen b) (charLen b) = some str :=
      fun _ _ => if_neg (not_not.mpr rfl)
    rw [if_pos hcased, validByteCount_ucpToUtf8 hscalar, Option.bind_some, ← hwidth, hsame,
      Option.bind_some, hutf8, Option.bind_some]
    by_cases hin : charLen b ≤ (b :: t).length
    · have hpoke : poke size (front ++ (b :: t ++ [0])) front.length (encoding (toCase c)) =
          some (front ++ (encoding (toCase c) ++ ((b :: t).drop (charLen b) ++ [0]))) := by
        rw [List.length_cons] at hin
        rw [poke_append (by omega), ← hwidth, List.drop_append_of_le_length hin]
      exact .inl ⟨hin, encoding (toCase c), hwidth.symm, by rw [hpoke, Option.bind_some]⟩
    refine .inr ⟨hin, ?_⟩
    by_cases hfits : front.length + (encoding (toCase c)).length ≤ size
    · -- the terminator is overwritten, and the next read is behind it
      rw [poke_append hfits, Option.bind_some]
      apply caseLoop_outside
      rw [List.length_cons] at hin
      simp only [List.length_append, List.length_drop, List.length_cons, List.length_nil]
      omega
    · rw [poke, if_neg hfits, Option.bind_none]
  · rw [if_neg hcased]
    by_cases hin : charLen b ≤ (b :: t).length
    · refine .inl ⟨hin, (b :: t).take (charLen b), ?_, ?_⟩
      · rw [List.length_take, Nat.min_eq_left hin]
      · rw [← List.append_assoc ((b :: t).take _), List.take_append_drop]
    · refine .inr ⟨hin, caseLoop_outside ?_ fuel⟩
      rw [List.length_cons] at hin
      simp only [List.length_append, List.length_cons, List.length_nil]
      omega

/-- The loop that changes case stays inside under the same condition. -/
theorem caseLoop_inside {fuel : Nat} (h0 : 0 ∉ s) (hkeep : KeepsWidth isCased toCase s)
    (hfuel : s.length < fuel) (hsize : (front ++ (s ++ [0])).length = size) :
    caseLoop size ascii isCased toCase fuel (front ++ (s ++ [0])) front.length ≠ none ↔
      LeadsFit s := by
  induction fuel generalizing front s with
  | zero => omega
  | succ fuel ih =>
    cases s with
    | nil =>
      rw [caseLoop, rd_front]
      simp [LeadsFit.nil]
    | cons b t =>
      by_cases hzero : charLen b = 0
      · -- no turn is made on a byte that leads nothing
        have hb : b ≠ 0 := fun h => h0 (h ▸ List.mem_cons_self)
        have hbyte : ¬ b.toNat < 0x80 := by
          intro hlt
          rw [charLen_ascii hlt] at hzero
          cases hzero
        obtain ⟨c, hc⟩ := toCodepoint_inside h0
        have hlead : utf8CharLength (b :: t ++ [0]) = some (charLen b) := utf8CharLength_cons b _
        rw [caseLoop, rd_front, List.drop_left, List.cons_append, rd_cons_zero, Option.bind_some,
          if_neg hb, ← List.cons_append, if_neg hbyte, hc, Option.bind_some, hlead]
        simp [hzero, LeadsFit.stop hzero]
      rw [leadsFit_iff hzero]
      rcases caseLoop_turn ascii h0 hkeep hsize hzero fuel with
        ⟨hin, new, hnew, hturn⟩ | ⟨hin, hturn⟩
      · rw [hturn, ← List.append_assoc, ← hnew, ← List.length_append]
        simp only [List.length_append, List.length_cons, List.length_nil] at hsize hfuel hin
        rw [ih (not_mem_drop h0 _) (hkeep.drop _), hnew]
        · exact (and_iff_right (by rwa [List.length_cons])).symm
        · rw [List.length_drop, List.length_cons]
          omega
        · simp only [List.length_append, List.length_drop, List.length_cons, List.length_nil]
          omega
      · rw [hturn]
        exact ⟨fun h => absurd rfl h, fun h => absurd h.1 hin⟩

end steps

/-! ## The calls -/

/-- The three functions stay inside a string exactly when following the announced lengths does. -/
theorem scansInside_iff {w : Wctype} {d : CString}
    (hlower : KeepsWidth w.iswupper w.towlower d.bytes)
    (hupper : KeepsWidth w.iswlower w.towupper d.bytes) :
    ScansInside w d ↔ LeadsFit d.bytes := by
  have hfuel : d.bytes.length < d.mem.length := by simp [CString.mem]
  have hsize : ([] ++ (d.bytes ++ [0])).length = d.mem.length := rfl
  have htolower : utf8Tolower w d.mem.length d.mem ≠ none ↔ LeadsFit d.bytes :=
    caseLoop_inside d.nulFree hlower hfuel hsize
  have htoupper : utf8Toupper w d.mem.length d.mem ≠ none ↔ LeadsFit d.bytes :=
    caseLoop_inside d.nulFree hupper hfuel hsize
  have hprint : printCodepointsLoop d.mem.length ([] ++ (d.bytes ++ [0])) 0 ≠ none ↔
      LeadsFit d.bytes := printCodepointsLoop_inside d.nulFree hfuel
  constructor
  · intro h
    exact hprint.mp h.print
  · intro h
    exact ⟨htolower.mpr h, htoupper.mpr h, hprint.mpr h⟩

theorem scansInside_accent : ScansInside oneAccent ⟨[0xC3, 0x89], by decide⟩ := by
  have hfirst : utf8ToCodepoint [0xC3, 0x89, 0] = some 0xC9 := by decide
  have hsecond : utf8ToCodepoint [0x89, 0] = some 0xFFFD := by decide
  have hscalar : NonzeroScalar 0xE9 := by simp [NonzeroScalar, unicodeMaxCodepoint]
  have hlower : KeepsWidth oneAccent.iswupper oneAccent.towlower [0xC3, 0x89] := by
    intro j hj c hc hcased
    rw [List.length_cons, List.length_singleton] at hj
    interval_cases j
    · have hwidth : utf8CharLength [0xC3, 0x89, 0] = some (encoding 0xE9).length := by decide
      exact ⟨hscalar, hwidth⟩
    · obtain rfl : 0xFFFD = c := Option.some.inj (hsecond.symm.trans hc)
      cases hcased
  have hupper : KeepsWidth oneAccent.iswlower oneAccent.towupper [0xC3, 0x89] := by
    intro j hj c hc hcased
    rw [List.length_cons, List.length_singleton] at hj
    interval_cases j
    · obtain rfl : 0xC9 = c := Option.some.inj (hfirst.symm.trans hc)
      cases hcased
    · obtain rfl : 0xFFFD = c := Option.some.inj (hsecond.symm.trans hc)
      cases hcased
  exact (scansInside_iff hlower hupper).mpr (.next (by decide) (by decide) .nil)

/-- A leading byte in front of the terminator: its case is not changed, and the cursor jumps over
the terminator. -/
theorem not_scansInside :
    KeepsWidth oneAccent.iswupper oneAccent.towlower [0xC3] ∧
      KeepsWidth oneAccent.iswlower oneAccent.towupper [0xC3] ∧
        ¬ ScansInside oneAccent ⟨[0xC3], by decide⟩ := by
  have hdecode : utf8ToCodepoint [0xC3, 0] = some 0xFFFD := by decide
  refine ⟨?_, ?_, ?_⟩
  · intro j hj c hc hcased
    rw [List.length_singleton] at hj
    interval_cases j
    obtain rfl : 0xFFFD = c := Option.some.inj (hdecode.symm.trans hc)
    cases hcased
  · intro j hj c hc hcased
    rw [List.length_singleton] at hj
    interval_cases j
    obtain rfl : 0xFFFD = c := Option.some.inj (hdecode.symm.trans hc)
    cases hcased
  · intro h
    exact h.print (by decide)

end Solidc.Unicode
