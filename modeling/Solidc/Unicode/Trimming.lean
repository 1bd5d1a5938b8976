import Solidc.Unicode.Casing
import Mathlib.Data.List.DropRight
import Mathlib.Data.Finset.Card

/-! # Trimming a set of characters

`utf8_trim_chars` collects the codepoints of its second argument in an array, passes over the
characters of the string that are in it, moves the rest to the front, and then walks back from the
end, where it finds the start of a character behind its continuation bytes.

* `trimSetLoop_collects` — the array holds the codepoints, and it is not too small for them;
* `trimFrontLoop_passes`, `trimBackLoop_passes` — what the two scans pass over;
* `utf8TrimChars_trims` — the call on valid strings.
-/

namespace Solidc.Unicode

open CLib

/-! ## The function -/

/-- `MAX_TRIM_CODEPOINTS`. -/
def maxTrimCodepoints : Nat := 256

/-- The loop that builds the set of codepoints. -/
def trimSetLoop (chars : CMem) (charsLen : Nat) : Nat → Nat → List Nat → Option (List Nat)
  | 0, _, _ => none
  | fuel + 1, k, trimCodepoints =>
    if k < charsLen ∧ trimCodepoints.length < maxTrimCodepoints then
      (utf8CharLength (chars.drop k)).bind fun charLen =>
      if charLen = 0 ∨ k + charLen > charsLen then
        trimSetLoop chars charsLen fuel (k + 1) trimCodepoints
      else
        (utf8ToCodepoint (chars.drop k)).bind fun codepoint =>
        trimSetLoop chars charsLen fuel (k + charLen)
          (if codepoint ≠ replacementCharacter ∧ codepoint ∉ trimCodepoints ∧
              trimCodepoints.length < maxTrimCodepoints
            then trimCodepoints ++ [codepoint] else trimCodepoints)
    else some trimCodepoints

/-- `should_trim`, in both scans. -/
def shouldTrim (trimCodepoints : List Nat) (codepoint : Nat) : Bool :=
  decide (codepoint ≠ replacementCharacter) && trimCodepoints.contains codepoint

/-- The scan from the front. -/
def trimFrontLoop (str : CMem) (trimCodepoints : List Nat) (len : Nat) : Nat → Nat → Option Nat
  | 0, _ => none
  | fuel + 1, i =>
    if i < len then
      (utf8CharLength (str.drop i)).bind fun charLen =>
      if charLen = 0 ∨ i + charLen > len then some i
      else
        (utf8ToCodepoint (str.drop i)).bind fun codepoint =>
        if shouldTrim trimCodepoints codepoint then
          trimFrontLoop str trimCodepoints len fuel (i + charLen)
        else some i
    else some i

/-- `while (char_start > 0 && (str[char_start] & 0xC0) == 0x80) char_start--`. -/
def charStart (str : CMem) : Nat → Option Nat
  | 0 => some 0
  | i + 1 => (str.rd (i + 1)).bind fun byte => if isCont byte then charStart str i else some (i + 1)

/-- The scan from the back. -/
def trimBackLoop (str : CMem) (trimCodepoints : List Nat) : Nat → Nat → Option Nat
  | 0, _ => none
  | fuel + 1, i =>
    if i > 0 then
      (charStart str (i - 1)).bind fun start =>
      (str.rd start).bind fun byte =>
      if isCont byte then some i
      else
        (utf8CharLength (str.drop start)).bind fun charLen =>
        if charLen = 0 ∨ start + charLen ≠ i then some i
        else
          (utf8ToCodepoint (str.drop start)).bind fun codepoint =>
          if shouldTrim trimCodepoints codepoint then trimBackLoop str trimCodepoints fuel start
          else some i
    else some i

/-- `utf8_trim_chars`: the buffer of the string afterwards. -/
def utf8TrimChars (str chars : CMem) : Option CMem :=
  (cstr chars).bind fun c =>
  (trimSetLoop chars c.length (c.length + 1) 0 []).bind fun trimCodepoints =>
  (cstr str).bind fun t =>
  (trimFrontLoop str trimCodepoints t.length (t.length + 1) 0).bind fun i =>
  (if i > 0 then memmove str.length str 0 i (t.length - i + 1) else some str).bind fun str =>
  (trimBackLoop str trimCodepoints (t.length + 1) (t.length - i)).bind fun i =>
  poke str.length str i [0]

/-! ## What it is for -/

/-- The characters of `ds` are taken away at both ends of `cps`. -/
def trimmed (ds cps : List Nat) : List Nat :=
  (cps.dropWhile (decide <| · ∈ ds)).rdropWhile (decide <| · ∈ ds)

variable {ds cps pre post set : List Nat} {str chars tail : CMem} {fuel i c : Nat}

/-! ## A character of a buffer -/

/-- What the scans read at a character. -/
theorem character_at (hc : NonzeroScalar c) (front tail : List UInt8) :
    utf8CharLength ((front ++ (encoding c ++ tail)).drop front.length) =
        some (encoding c).length ∧
      utf8ToCodepoint ((front ++ (encoding c ++ tail)).drop front.length) = some c ∧
      (encoding c).length ≠ 0 := by
  have hspell := spells_encoding hc
  rw [List.drop_left]
  exact ⟨charLength_spells hspell tail, toCodepoint_spells hspell tail,
    Nat.ne_of_gt hspell.length_pos⟩

theorem encodeAll_split (pre post : List Nat) (c : Nat) (tail : List UInt8) :
    encodeAll (pre ++ c :: post) ++ tail =
      encodeAll pre ++ (encoding c ++ (encodeAll post ++ tail)) := by
  rw [encodeAll_append, encodeAll_cons, List.append_assoc, List.append_assoc]

theorem length_encodeAll_snoc (pre : List Nat) (c : Nat) :
    (encodeAll (pre ++ [c])).length = (encodeAll pre).length + (encoding c).length := by
  rw [encodeAll_append, List.length_append, encodeAll_cons, encodeAll_nil, List.append_nil]

theorem length_encodeAll_split (pre post : List Nat) (c : Nat) :
    (encodeAll (pre ++ c :: post)).length =
      (encodeAll (pre ++ [c])).length + (encodeAll post).length := by
  rw [List.append_cons, encodeAll_append, List.length_append]

/-! ## The set -/

/-- The array holds the characters of `cps`, each once. -/
structure Collected (set cps : List Nat) : Prop where
  nodup : set.Nodup
  mem : ∀ x, x ∈ set ↔ x ∈ cps

theorem Collected.add (h : Collected set pre) (hc : c ≠ replacementCharacter)
    (hroom : set.length < maxTrimCodepoints) :
    Collected (if c ≠ replacementCharacter ∧ c ∉ set ∧ set.length < maxTrimCodepoints
      then set ++ [c] else set) (pre ++ [c]) := by
  by_cases hmem : c ∈ set
  · rw [if_neg fun hnew => hnew.2.1 hmem]
    refine ⟨h.nodup, fun x => ?_⟩
    rw [List.mem_append, List.mem_singleton, h.mem]
    exact ⟨.inl, fun hx => hx.elim id fun heq => heq ▸ (h.mem c).mp hmem⟩
  · rw [if_pos ⟨hc, hmem, hroom⟩]
    refine ⟨h.nodup.append (List.nodup_singleton c) (by simpa using hmem), fun x => ?_⟩
    rw [List.mem_append, List.mem_append, h.mem]

/-- A full array has all characters of the argument. -/
theorem Collected.of_full (h : Collected set pre) (hfull : maxTrimCodepoints ≤ set.length)
    (hfew : (pre ++ post).toFinset.card ≤ maxTrimCodepoints) : Collected set (pre ++ post) := by
  refine ⟨h.nodup, fun x => ?_⟩
  have hsub : set.toFinset ⊆ (pre ++ post).toFinset := by
    intro y hy
    rw [List.mem_toFinset] at hy ⊢
    exact List.mem_append_left post ((h.mem y).mp hy)
  have heq := Finset.eq_of_subset_of_card_le hsub (by
    rw [List.toFinset_card_of_nodup h.nodup]
    exact hfew.trans hfull)
  rw [← List.mem_toFinset, heq, List.mem_toFinset]

/-- The rest of the argument is collected; where the array is full, nothing new is left. -/
theorem trimSetLoop_collects (hall : Scalars (pre ++ post))
    (hrep : replacementCharacter ∉ pre ++ post)
    (hfew : (pre ++ post).toFinset.card ≤ maxTrimCodepoints) (hset : Collected set pre)
    (hfuel : post.length < fuel) :
    ∃ set', trimSetLoop (encodeAll (pre ++ post) ++ tail) (encodeAll (pre ++ post)).length fuel
        (encodeAll pre).length set = some set' ∧ Collected set' (pre ++ post) := by
  induction fuel generalizing pre post set with
  | zero => omega
  | succ fuel ih =>
    rw [trimSetLoop]
    cases post with
    | nil =>
      rw [List.append_nil, if_neg fun hgo => Nat.lt_irrefl _ hgo.1]
      exact ⟨set, rfl, hset⟩
    | cons c post =>
      have hmem : c ∈ pre ++ c :: post := List.mem_append_right pre List.mem_cons_self
      obtain ⟨hlen, hcode, hpos⟩ := character_at (hall c hmem) (encodeAll pre)
        (encodeAll post ++ tail)
      rw [← encodeAll_split] at hlen hcode
      have hsum := length_encodeAll_split pre post c
      rw [length_encodeAll_snoc] at hsum
      by_cases hfull : maxTrimCodepoints ≤ set.length
      · rw [if_neg fun hgo => Nat.not_lt.mpr hfull hgo.2]
        exact ⟨set, rfl, hset.of_full hfull hfew⟩
      · have hroom := Nat.lt_of_not_le hfull
        have hin : ¬ ((encoding c).length = 0 ∨
            (encodeAll pre).length + (encoding c).length > (encodeAll (pre ++ c :: post)).length) := by
          omega
        have hne : c ≠ replacementCharacter := fun heq => hrep (heq ▸ hmem)
        rw [if_pos ⟨by omega, hroom⟩, hlen, Option.bind_some, if_neg hin, hcode, Option.bind_some,
          ← length_encodeAll_snoc]
        rw [List.append_cons] at hall hrep hfew ⊢
        exact ih hall hrep hfew (hset.add hne hroom) (Nat.lt_of_succ_lt_succ hfuel)

theorem shouldTrim_eq (hset : Collected set ds) (hrep : replacementCharacter ∉ ds) (c : Nat) :
    shouldTrim set c = decide (c ∈ ds) := by
  rw [shouldTrim, List.contains_eq_mem, ← Bool.decide_and, decide_eq_decide, hset.mem]
  exact ⟨And.right, fun hc => ⟨fun heq => hrep (heq ▸ hc), hc⟩⟩

/-! ## The scans -/

/-- From behind `pre`, the scan passes over the characters to trim. -/
theorem trimFrontLoop_passes (hset : Collected set ds) (hrep : replacementCharacter ∉ ds)
    (hall : Scalars post) (hfuel : post.length < fuel) :
    trimFrontLoop (encodeAll (pre ++ post) ++ tail) set (encodeAll (pre ++ post)).length fuel
        (encodeAll pre).length =
      some (encodeAll (pre ++ post.takeWhile (decide <| · ∈ ds))).length := by
  induction fuel generalizing pre post with
  | zero => omega
  | succ fuel ih =>
    rw [trimFrontLoop]
    cases post with
    | nil =>
      rw [List.append_nil, if_neg (Nat.lt_irrefl _), List.takeWhile_nil, List.append_nil]
    | cons c post =>
      obtain ⟨hlen, hcode, hpos⟩ := character_at (hall c List.mem_cons_self) (encodeAll pre)
        (encodeAll post ++ tail)
      rw [← encodeAll_split] at hlen hcode
      have hsum := length_encodeAll_split pre post c
      rw [length_encodeAll_snoc] at hsum
      have hin : ¬ ((encoding c).length = 0 ∨
          (encodeAll pre).length + (encoding c).length > (encodeAll (pre ++ c :: post)).length) := by
        omega
      rw [if_pos (by omega), hlen, Option.bind_some, if_neg hin, hcode, Option.bind_some,
        shouldTrim_eq hset hrep, ← length_encodeAll_snoc]
      by_cases hc : c ∈ ds
      · rw [if_pos (decide_eq_true hc), List.takeWhile_cons_of_pos (by simpa using hc),
          List.append_cons pre c post, ih hall.tail (Nat.lt_of_succ_lt_succ hfuel),
          ← List.append_cons]
      · rw [if_neg (by simpa using hc), List.takeWhile_cons_of_neg (by simpa using hc),
          List.append_nil]

/-- From inside of a character, the start is found. -/
theorem charStart_finds {front l : List UInt8} {b : UInt8} (hb : isCont b = false)
    (hl : ∀ x ∈ l, isCont x = true) {j : Nat} (hj : j ≤ l.length) :
    charStart (front ++ (b :: l ++ tail)) (front.length + j) = some front.length := by
  induction j with
  | zero =>
    cases hfront : front.length with
    | zero => rfl
    | succ n =>
      have hrd : CMem.rd (front ++ (b :: l ++ tail)) (n + 1) = some b := by
        rw [← hfront, CMem.rd, List.getElem?_append_right (Nat.le_refl _), Nat.sub_self]
        rfl
      rw [Nat.add_zero, charStart, hrd, Option.bind_some, hb]
      rfl
  | succ j ih =>
    have hrd : CMem.rd (front ++ (b :: l ++ tail)) (front.length + j + 1) = some l[j] := by
      rw [CMem.rd, Nat.add_assoc, List.getElem?_append_right (Nat.le_add_right ..),
        Nat.add_sub_cancel_left, List.cons_append, List.getElem?_cons_succ,
        List.getElem?_append_left hj, List.getElem?_eq_getElem]
    rw [← Nat.add_assoc, charStart, hrd, Option.bind_some, if_pos (hl _ (List.getElem_mem _)),
      ih (Nat.le_of_succ_le hj)]

/-- From the end of `pre`, the scan passes over the characters to trim. -/
theorem trimBackLoop_passes (hset : Collected set ds) (hrep : replacementCharacter ∉ ds)
    (hall : Scalars pre) (hfuel : pre.length < fuel) :
    trimBackLoop (encodeAll pre ++ tail) set fuel (encodeAll pre).length =
      some (encodeAll (pre.rdropWhile (decide <| · ∈ ds))).length := by
  induction fuel generalizing pre tail with
  | zero => omega
  | succ fuel ih =>
    rw [trimBackLoop]
    cases pre using List.reverseRecOn with
    | nil =>
      rfl
    | append_singleton pre c =>
      have hc : NonzeroScalar c := hall c (by simp)
      have hpre : Scalars pre := fun x hx => hall x (List.mem_append_left [c] hx)
      obtain ⟨b, l, heq, hb, -, hl⟩ := encoding_eq_cons hc
      obtain ⟨hlen, hcode, hpos⟩ := character_at hc (encodeAll pre) tail
      have hbuf : encodeAll (pre ++ [c]) ++ tail = encodeAll pre ++ (encoding c ++ tail) := by
        rw [encodeAll_split, encodeAll_nil, List.nil_append]
      have hend := length_encodeAll_snoc pre c
      -- the byte in front of the end is a byte of the last character
      have hstart : charStart (encodeAll pre ++ (encoding c ++ tail))
          ((encodeAll pre).length + (encoding c).length - 1) = some (encodeAll pre).length := by
        rw [heq, List.length_cons, ← Nat.add_assoc, Nat.add_sub_cancel]
        exact charStart_finds hb hl (Nat.le_refl _)
      have hlead : CMem.rd (encodeAll pre ++ (encoding c ++ tail)) (encodeAll pre).length =
          some b := by
        rw [heq, CMem.rd, List.getElem?_append_right (Nat.le_refl _), Nat.sub_self]
        rfl
      rw [hbuf, hend, if_pos (by omega), hstart, Option.bind_some, hlead, Option.bind_some, hb,
        if_neg Bool.false_ne_true, hlen, Option.bind_some,
        if_neg (by omega), hcode, Option.bind_some, shouldTrim_eq hset hrep]
      by_cases hmem : c ∈ ds
      · rw [if_pos (decide_eq_true hmem), List.rdropWhile_concat_pos _ _ _ (by simpa using hmem)]
        rw [List.length_append, List.length_singleton] at hfuel
        exact ih hpre (Nat.lt_of_succ_lt_succ hfuel)
      · rw [if_neg (by simpa using hmem), List.rdropWhile_concat_neg _ _ _ (by simpa using hmem),
          hend]

/-! ## The call -/

/-- What is behind the characters that were passed is at the front afterwards. -/
theorem moveFront_eq (pre post : List Nat) (rest : CMem) :
    ∃ more, (if (encodeAll pre).length > 0 then
        memmove (encodeAll (pre ++ post) ++ 0 :: rest).length (encodeAll (pre ++ post) ++ 0 :: rest)
          0 (encodeAll pre).length ((encodeAll (pre ++ post)).length - (encodeAll pre).length + 1)
      else some (encodeAll (pre ++ post) ++ 0 :: rest)) = some (encodeAll post ++ 0 :: more) := by
  have hlen : (encodeAll (pre ++ post)).length =
      (encodeAll pre).length + (encodeAll post).length := by
    rw [encodeAll_append, List.length_append]
  split
  · have hfits : 0 + 0 + ((encodeAll (pre ++ post)).length - 0 - (encodeAll pre).length + 1) ≤
        (encodeAll (pre ++ post) ++ 0 :: rest).length := by
      rw [List.length_append, List.length_cons]
      omega
    obtain ⟨buf, more, hmove, -, -, -, hdrop⟩ :=
      splice 0 (show 0 + (encodeAll pre).length ≤ _ by omega) hfits (Nat.le_refl _)
    rw [Nat.zero_add, List.drop_zero, Nat.zero_add, encodeAll_append, List.drop_left] at hdrop
    rw [Nat.zero_add, Nat.zero_add, Nat.sub_zero] at hmove
    exact ⟨more, hdrop ▸ hmove⟩
  · -- no character was passed
    next hnone =>
    have hnil : encodeAll pre = [] := List.eq_nil_of_length_eq_zero (by omega)
    exact ⟨rest, by rw [encodeAll_append, hnil, List.nil_append]⟩

/-- A terminator is written behind the characters that are left. -/
theorem terminate_eq (hpre : Scalars pre) (post : List Nat) (more : CMem) :
    LeavesEncoding (poke (encodeAll (pre ++ post) ++ 0 :: more).length
      (encodeAll (pre ++ post) ++ 0 :: more) (encodeAll pre).length [0]) pre := by
  have hnul := zero_not_mem_encodeAll hpre
  have hbuf : encodeAll (pre ++ post) ++ 0 :: more =
      encodeAll pre ++ (encodeAll post ++ 0 :: more) := by
    rw [encodeAll_append, List.append_assoc]
  have hfits : (encodeAll pre).length + [(0 : UInt8)].length ≤
      (encodeAll pre ++ (encodeAll post ++ 0 :: more)).length := by
    simp only [List.length_append, List.length_cons, List.length_nil]
    omega
  rw [hbuf, poke_append hfits]
  exact ⟨_, rfl, cstr_append hnul, (isValidUtf8_iff hnul).mpr ⟨pre, hpre, rfl⟩⟩

/-- `utf8_trim_chars` leaves the characters of the string without its longest beginning and its
longest end of characters of `chars`, as valid UTF-8. -/
theorem utf8TrimChars_trims (hcps : Scalars cps) (hds : Scalars ds)
    (hrep : replacementCharacter ∉ ds) (hfew : ds.toFinset.card ≤ 256) (rest rest' : CMem) :
    LeavesEncoding (utf8TrimChars (encodeAll cps ++ 0 :: rest) (encodeAll ds ++ 0 :: rest'))
      (trimmed ds cps) := by
  have hdsLen := length_le_encodeAll hds
  have hlen := length_le_encodeAll hcps
  obtain ⟨set, hsetLoop, hset⟩ : ∃ set, trimSetLoop (encodeAll ds ++ 0 :: rest')
      (encodeAll ds).length ((encodeAll ds).length + 1) 0 [] = some set ∧ Collected set ds :=
    @trimSetLoop_collects [] ds [] _ _ hds hrep hfew ⟨List.nodup_nil, fun _ => Iff.rfl⟩ (by omega)
  have hfront : trimFrontLoop (encodeAll cps ++ 0 :: rest) set (encodeAll cps).length
      ((encodeAll cps).length + 1) 0 =
        some (encodeAll (cps.takeWhile (decide <| · ∈ ds))).length :=
    @trimFrontLoop_passes _ [] cps _ _ _ hset hrep hcps (by omega)
  have hsplit : cps.takeWhile (decide <| · ∈ ds) ++ cps.dropWhile (decide <| · ∈ ds) = cps :=
    List.takeWhile_append_dropWhile
  have hkept : Scalars (cps.dropWhile (decide <| · ∈ ds)) := fun c hc =>
    hcps c ((List.dropWhile_suffix _).subset hc)
  obtain ⟨more, hmove⟩ := moveFront_eq (cps.takeWhile (decide <| · ∈ ds))
    (cps.dropWhile (decide <| · ∈ ds)) rest
  have hlength : (encodeAll cps).length =
      (encodeAll (cps.takeWhile (decide <| · ∈ ds))).length +
        (encodeAll (cps.dropWhile (decide <| · ∈ ds))).length := by
    rw [← List.length_append, ← encodeAll_append, hsplit]
  have hkeptLen := length_le_encodeAll hkept
  have hback := @trimBackLoop_passes _ _ _ (0 :: more) ((encodeAll cps).length + 1) hset hrep hkept
    (by omega)
  have hend : (encodeAll cps).length - (encodeAll (cps.takeWhile (decide <| · ∈ ds))).length =
      (encodeAll (cps.dropWhile (decide <| · ∈ ds))).length := by omega
  obtain ⟨gone, hgone⟩ := List.rdropWhile_prefix (decide <| · ∈ ds)
    (l := cps.dropWhile (decide <| · ∈ ds))
  have hleft := terminate_eq (fun c hc => hkept c (hgone ▸ List.mem_append_left gone hc)) gone more
  rw [hsplit] at hmove
  rw [hgone] at hleft
  rwa [utf8TrimChars, cstr_append (zero_not_mem_encodeAll hds), Option.bind_some, hsetLoop,
    Option.bind_some, cstr_append (zero_not_mem_encodeAll hcps), Option.bind_some, hfront,
    Option.bind_some, hmove, Option.bind_some, hend, hback, Option.bind_some, trimmed]

/-- A letter is left between an accented one and a comma with an accented one. -/
theorem utf8TrimChars_trims_accent :
    LeavesEncoding (utf8TrimChars [0xC3, 0xA9, 0x61, 0x2C, 0xC3, 0xA9, 0] [0x2C, 0xC3, 0xA9, 0])
      [0x61] := by
  have hcps : Scalars [0xE9, 0x61, 0x2C, 0xE9] := by
    simp [Scalars, NonzeroScalar, unicodeMaxCodepoint]
  have hds : Scalars [0x2C, 0xE9] := by
    simp [Scalars, NonzeroScalar, unicodeMaxCodepoint]
  exact utf8TrimChars_trims hcps hds (by decide) (by decide) [] []

end Solidc.Unicode
