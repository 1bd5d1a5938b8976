import Solidc.Unicode.Replacing
import Mathlib.Data.List.Forall2

/-! # Splitting at a delimiter

`utf8_split` goes over the string twice: the first pass counts the parts, the second one stores
them in an array of this size. Both passes try the delimiter at the starts of characters only.

* `matchesAt_eq` — the test of both passes;
* `countParts_pieces`, `splitLoop_pieces` — both passes follow `CLib.pieces`;
* `utf8Split_splits` — the array is filled, and the parts are what stands between the delimiters.
-/

namespace Solidc.Unicode

open CLib

/-! ## The function -/

/-- `i + delim_len <= len && memcmp(&str->data[i], delim, delim_len) == 0`. -/
def matchesAt (s : Utf8String) (delim : CMem) (delimLen i : Nat) : Option Bool :=
  if i + delimLen ≤ s.length then
    (peek s.data i delimLen).bind fun bytes =>
    (peek delim 0 delimLen).map fun wanted => decide (bytes = wanted)
  else some false

/-- The first pass of `utf8_split`. -/
def countParts (s : Utf8String) (delim : CMem) (delimLen : Nat) : Nat → Nat → Nat → Option Nat
  | 0, _, _ => none
  | fuel + 1, i, count =>
    if i < s.length then
      (matchesAt s delim delimLen i).bind fun found =>
      if found then countParts s delim delimLen fuel (i + delimLen) (count + 1)
      else
        (utf8CharLength (s.data.drop i)).bind fun charLen =>
        if charLen = 0 then some count
        else countParts s delim delimLen fuel (i + charLen) count
    else some count

/-- The array of the parts: how many pointers it has room for, and those that are stored. -/
structure PartArray where
  slots : Nat
  parts : List Utf8String

/-- `parts[index] = utf8_new(piece); index++`, where `piece` is a copy of the bytes from `start`
to `stop`. `none` is an access out of bounds, `some none` a `NULL` from `utf8_new`. -/
def storePart (s : Utf8String) (a : PartArray) (start stop : Nat) : Option (Option PartArray) :=
  (peek s.data start (stop - start)).bind fun bytes =>
  (utf8New (bytes ++ [0])).bind fun part =>
  if a.parts.length < a.slots then
    some (part.map fun part => { a with parts := a.parts ++ [part] })
  else none

/-- The second pass of `utf8_split`, and the trailing part. -/
def splitLoop (s : Utf8String) (delim : CMem) (delimLen : Nat) :
    Nat → Nat → Nat → PartArray → Option (Option PartArray)
  | 0, _, _, _ => none
  | fuel + 1, i, start, a =>
    if i < s.length then
      (matchesAt s delim delimLen i).bind fun found =>
      if found then
        (storePart s a start i).bind fun r =>
        match r with
        | none => some none
        | some a => splitLoop s delim delimLen fuel (i + delimLen) (i + delimLen) a
      else
        (utf8CharLength (s.data.drop i)).bind fun charLen =>
        -- a malformed byte ends the loop
        if charLen = 0 then storePart s a start s.length
        else splitLoop s delim delimLen fuel (i + charLen) start a
    else storePart s a start s.length

/-- `utf8_split`: the parts, `*num_parts` many of them; `some none` is `NULL`. The size of the
array is a `size_t`. -/
def utf8Split (s : Utf8String) (delim : CMem) : Option (Option (List Utf8String)) :=
  (utf8ValidByteCount delim).bind fun delimLen =>
  if delimLen = 0 then some none
  else
    (countParts s delim delimLen (s.length + 1) 0 1).bind fun count =>
    (splitLoop s delim delimLen (s.length + 1) 0 0 ⟨count * 8 % 2 ^ 64 / 8, []⟩).map
      fun r => r.map (·.parts)

/-! ## The test at a character -/

variable {s : Utf8String} {delim : CString} {cps ds pre cur rest : List Nat} {fuel : Nat}

theorem matchesAt_eq (h : Represents s (pre ++ rest)) (hd : Encodes delim ds) :
    matchesAt s delim.mem delim.bytes.length (encodeAll pre).length =
      some (decide (ds <+: rest)) := by
  obtain ⟨tail, hdata⟩ := h.data
  have hrest : Scalars rest := fun c hc => h.scalars c (List.mem_append_right pre hc)
  have hiff := encodeAll_prefix_iff hd.scalars hrest
  have hlen : s.length = (encodeAll pre).length + (encodeAll rest).length := by
    rw [h.length, encodeAll_append, List.length_append]
  rw [hd.bytes] at hiff
  rw [matchesAt, hlen]
  by_cases hfits : (encodeAll pre).length + delim.bytes.length ≤
      (encodeAll pre).length + (encodeAll rest).length
  · have hle : delim.bytes.length ≤ (encodeAll rest).length := by omega
    have hbytes : peek s.data (encodeAll pre).length delim.bytes.length =
        some ((encodeAll rest).take delim.bytes.length) := by
      rw [hdata, encodeAll_append, List.append_assoc, peek_eq, List.drop_left,
        List.take_append_of_le_length hle]
      simp only [List.length_append]
      omega
    have hwanted : peek delim.mem 0 delim.bytes.length = some delim.bytes := by
      rw [peek_eq (by simp [CString.mem]), List.drop_zero, CString.mem, List.take_left]
    rw [if_pos hfits, hbytes, hwanted, Option.bind_some, Option.map_some, Option.some.injEq,
      decide_eq_decide, ← hiff]
    exact ⟨fun heq => heq ▸ List.take_prefix _ _, fun hpre => (List.prefix_iff_eq_take.mp hpre).symm⟩
  · rw [if_neg hfits]
    refine congrArg some (decide_eq_false fun hpre => hfits ?_).symm
    have hle := (hiff.mpr hpre).length_le
    omega

/-- The cursor passes an occurrence of the delimiter. -/
theorem pass_delimiter (hd : Encodes delim ds) (h : Represents s (pre ++ rest))
    (hocc : ds <+: rest) :
    Represents s (pre ++ ds ++ rest.drop ds.length) ∧
      (encodeAll pre).length + delim.bytes.length = (encodeAll (pre ++ ds)).length := by
  refine ⟨?_, by rw [encodeAll_append, List.length_append, hd.bytes]⟩
  obtain ⟨t, rfl⟩ := hocc
  rw [List.drop_left, List.append_assoc]
  exact h

/-- The cursor passes a character. -/
theorem pass_character {c : Nat} (h : Represents s (pre ++ c :: rest)) :
    Represents s (pre ++ [c] ++ rest) ∧ (encodeAll pre).length < s.length ∧
      ∃ k, utf8CharLength (s.data.drop (encodeAll pre).length) = some k ∧ k ≠ 0 ∧
        (encodeAll pre).length + k = (encodeAll (pre ++ [c])).length := by
  obtain ⟨tail, hdata⟩ := h.data
  have hc := spells_encoding (h.scalars c (List.mem_append_right pre List.mem_cons_self))
  have hpos := hc.length_pos
  refine ⟨?_, ?_, (encoding c).length, ?_, Nat.ne_of_gt hpos, ?_⟩
  · rw [List.append_assoc]
    exact h
  · rw [h.length, encodeAll_append, encodeAll_cons, List.length_append, List.length_append]
    omega
  · rw [hdata, encodeAll_append, List.append_assoc, List.drop_left, encodeAll_cons,
      List.append_assoc]
    exact charLength_spells hc _
  · rw [encodeAll_append, List.length_append, encodeAll_cons, encodeAll_nil, List.append_nil]

/-- No character is left. -/
theorem not_lt_of_end (h : Represents s (pre ++ [])) : ¬ (encodeAll pre).length < s.length := by
  rw [h.length, List.append_nil]
  exact lt_irrefl _

theorem length_drop_lt {c : Nat} (hne : ds ≠ []) :
    ((c :: rest).drop ds.length).length < (c :: rest).length := by
  have hpos := List.length_pos_iff.mpr hne
  rw [List.length_drop, List.length_cons]
  omega

/-! ## The passes -/

/-- The first pass counts the pieces, in a turn for a delimiter or for a character. -/
theorem countParts_pieces (hd : Encodes delim ds) (hne : ds ≠ [])
    (h : Represents s (pre ++ rest)) (hfuel : rest.length < fuel) (count : Nat) :
    countParts s delim.mem delim.bytes.length fuel (encodeAll pre).length (count + 1) =
      some (count + (CLib.pieces ds rest).length) := by
  induction fuel generalizing pre rest count with
  | zero => omega
  | succ fuel ih =>
    rw [countParts]
    cases rest with
    | nil =>
      rw [if_neg (not_lt_of_end h), CLib.pieces_nil hne]
      rfl
    | cons c rest =>
      obtain ⟨hnext, hlt, k, hlen, hk, hcursor⟩ := pass_character h
      rw [if_pos hlt, matchesAt_eq h hd, Option.bind_some]
      by_cases hocc : ds <+: c :: rest
      · obtain ⟨hbehind, hskip⟩ := pass_delimiter hd h hocc
        have hless := Nat.lt_of_lt_of_le (length_drop_lt hne) (Nat.lt_succ_iff.mp hfuel)
        rw [if_pos (decide_eq_true hocc), hskip, ih hbehind hless, pieces_prefixed hne hocc,
          List.length_cons, Nat.add_assoc, Nat.add_comm 1]
      · simp only [decide_eq_false hocc, Bool.false_eq_true, if_false, hlen, Option.bind_some,
          if_neg hk, hcursor]
        rw [ih hnext (Nat.lt_of_succ_lt_succ hfuel), pieces_cons hne hocc, List.length_modifyHead]

/-- A list that fits a string object. -/
theorem new_represents (hcur : Scalars cur) (hfits : (encodeAll cur).length ≤ maxCapacity) :
    ∃ p, utf8New (encodeAll cur ++ [0]) = some (some p) ∧ Represents p cur := by
  have hd : Encodes ⟨encodeAll cur, zero_not_mem_encodeAll hcur⟩ cur := ⟨hcur, rfl⟩
  rcases utf8New_spec ⟨encodeAll cur, zero_not_mem_encodeAll hcur⟩ with
    ⟨hmax, -⟩ | ⟨p, hnew, hp, hcount⟩
  · rw [hd.validLen_eq] at hmax
    exact absurd hfits (Nat.not_le.mpr hmax)
  · have hle := length_le_encodeAll hcur
    have hsmall : cur.length < 2 ^ 64 := by
      unfold maxCapacity at hfits
      omega
    rw [hd.take_validLen] at hp hcount
    rw [leads_encodeAll hcur, ← Nat.mod_eq_of_lt hsmall] at hcount
    exact ⟨p, hnew, hp.represents hcur rfl hcount rfl⟩

/-- A part between two places of the string is stored. -/
theorem storePart_represents {a : PartArray} (h : Represents s (pre ++ cur ++ rest))
    (hroom : a.parts.length < a.slots) :
    ∃ p, storePart s a (encodeAll pre).length (encodeAll (pre ++ cur)).length =
        some (some { a with parts := a.parts ++ [p] }) ∧ Represents p cur := by
  obtain ⟨tail, hdata⟩ := h.data
  have hcur : Scalars cur := fun c hc =>
    h.scalars c (List.mem_append_left rest (List.mem_append_right pre hc))
  have hlen : (encodeAll (pre ++ cur)).length - (encodeAll pre).length =
      (encodeAll cur).length := by
    rw [encodeAll_append, List.length_append, Nat.add_sub_cancel_left]
  have hbytes : peek s.data (encodeAll pre).length (encodeAll cur).length =
      some (encodeAll cur) := by
    rw [hdata, encodeAll_append, encodeAll_append, List.append_assoc, List.append_assoc,
      peek_eq (by simp), List.drop_left, List.take_left]
  have hfits : (encodeAll cur).length ≤ maxCapacity := by
    have hle := h.length_le
    have hcap := h.fits
    rw [h.length, encodeAll_append, encodeAll_append] at hle
    simp only [List.length_append] at hle
    omega
  obtain ⟨p, hnew, hp⟩ := new_represents hcur hfits
  refine ⟨p, ?_, hp⟩
  rw [storePart, hlen, hbytes, Option.bind_some, hnew, Option.bind_some, if_pos hroom]
  rfl

theorem modifyHead_nil_append (l : List (List Nat)) : l.modifyHead ([] ++ ·) = l := by
  cases l <;> rfl

/-- The second pass stores the pieces; `cur` is what it has passed since the last delimiter. -/
theorem splitLoop_pieces {a : PartArray} (hd : Encodes delim ds) (hne : ds ≠ [])
    (h : Represents s (pre ++ cur ++ rest)) (hfuel : rest.length < fuel)
    (hroom : a.parts.length + (CLib.pieces ds rest).length ≤ a.slots) :
    ∃ new, splitLoop s delim.mem delim.bytes.length fuel (encodeAll (pre ++ cur)).length
        (encodeAll pre).length a = some (some { a with parts := a.parts ++ new }) ∧
      List.Forall₂ Represents new ((CLib.pieces ds rest).modifyHead (cur ++ ·)) := by
  induction fuel generalizing pre cur rest a with
  | zero => omega
  | succ fuel ih =>
    have hpos := List.length_pos_iff.mpr (pieces_ne_nil hne rest)
    have hfree : a.parts.length < a.slots := by omega
    rw [splitLoop]
    cases rest with
    | nil =>
      obtain ⟨p, hstore, hp⟩ := storePart_represents h hfree
      have hend : s.length = (encodeAll (pre ++ cur)).length := by rw [h.length, List.append_nil]
      refine ⟨[p], ?_, ?_⟩
      · rw [if_neg (not_lt_of_end h), hend, hstore]
      · rw [CLib.pieces_nil hne, List.modifyHead_cons, List.append_nil]
        exact .cons hp .nil
    | cons c rest =>
      obtain ⟨hnext, hlt, k, hlen, hk, hcursor⟩ := pass_character h
      rw [if_pos hlt, matchesAt_eq h hd, Option.bind_some]
      by_cases hocc : ds <+: c :: rest
      · -- the piece is complete, and an empty one begins behind the delimiter
        obtain ⟨hbehind, hskip⟩ := pass_delimiter hd h hocc
        obtain ⟨p, hstore, hp⟩ := storePart_represents h hfree
        have hless := Nat.lt_of_lt_of_le (length_drop_lt hne) (Nat.lt_succ_iff.mp hfuel)
        rw [← List.append_nil (pre ++ cur ++ ds)] at hbehind
        rw [pieces_prefixed hne hocc, List.length_cons] at hroom
        have hmore : (a.parts ++ [p]).length +
            (CLib.pieces ds ((c :: rest).drop ds.length)).length ≤ a.slots := by
          rw [List.length_append, List.length_singleton]
          omega
        obtain ⟨new, hrun, hnew⟩ := ih (a := ⟨a.slots, a.parts ++ [p]⟩) hbehind hless hmore
        refine ⟨p :: new, ?_, ?_⟩
        · rw [List.append_nil] at hrun
          rw [if_pos (decide_eq_true hocc), hstore, Option.bind_some, hskip,
            List.append_cons a.parts p new]
          exact hrun
        · rw [modifyHead_nil_append] at hnew
          rw [pieces_prefixed hne hocc, List.modifyHead_cons, List.append_nil]
          exact .cons hp hnew
      · -- the piece grows by a character
        rw [List.append_assoc pre cur [c]] at hnext
        rw [pieces_cons hne hocc, List.length_modifyHead] at hroom
        obtain ⟨new, hrun, hnew⟩ := ih hnext (Nat.lt_of_succ_lt_succ hfuel) hroom
        refine ⟨new, ?_, ?_⟩
        · simp only [decide_eq_false hocc, Bool.false_eq_true, if_false, hlen, Option.bind_some,
            if_neg hk, hcursor]
          rw [List.append_assoc]
          exact hrun
        · have hgrown : (cur ++ ·) ∘ (c :: ·) = ((cur ++ [c]) ++ ·) := by
            funext l
            simp
          rw [pieces_cons hne hocc, List.modifyHead_modifyHead, hgrown]
          exact hnew

/-! ## The call -/

theorem encodeAll_intercalate (ds : List Nat) (ps : List (List Nat)) :
    encodeAll (ds.intercalate ps) = (encodeAll ds).intercalate (ps.map encodeAll) := by
  induction ps with
  | nil => rfl
  | cons p ps ih =>
    cases ps with
    | nil => simp
    | cons q ps =>
      have hne : q :: ps ≠ [] := List.cons_ne_nil q ps
      rw [intercalate_cons hne, List.map_cons, intercalate_cons (List.map_eq_nil_iff.not.mpr hne),
        encodeAll_append, encodeAll_append, ih]

/-- An encoding occurs in another one only as a part of its characters. -/
theorem encodeAll_infix_iff (hds : Scalars ds) (hne : ds ≠ []) (hcur : Scalars cur) :
    encodeAll ds <:+: encodeAll cur ↔ ds <:+: cur := by
  have hbytes : encodeAll ds ≠ [] := by
    intro hnil
    have hle := length_le_encodeAll hds
    rw [hnil, List.length_nil, Nat.le_zero, List.length_eq_zero_iff] at hle
    exact hne hle
  rw [← not_iff_not, ← findSub_eq_none_iff_absent hbytes, ← findSub_eq_none_iff_absent hne,
    findSub_encodeAll hds hne hcur, Option.map_eq_none_iff]

/-- What the parts of `text` at a delimiter are to be. -/
structure SplitsInto (text delim : List UInt8) (parts : List Utf8String) : Prop where
  valid : ∀ p ∈ parts, ValidString p
  separated : ∀ p ∈ parts, ¬ delim <:+: cstrOf p.data
  joined : delim.intercalate (parts.map fun p => cstrOf p.data) = text

/-- The parts that represent the pieces of a list. -/
theorem splitsInto_of_pieces {parts : List Utf8String} (hd : Encodes delim ds) (hne : ds ≠ [])
    (hparts : List.Forall₂ Represents parts (CLib.pieces ds cps)) :
    SplitsInto (encodeAll cps) delim.bytes parts := by
  have hmem : ∀ p ∈ parts, ∃ q ∈ CLib.pieces ds cps, Represents p q := by
    intro p hp
    obtain ⟨i, hi, rfl⟩ := List.getElem_of_mem hp
    exact ⟨_, List.getElem_mem _, hparts.get hi (hparts.length_eq ▸ hi)⟩
  have htexts : (parts.map fun p => cstrOf p.data) = (CLib.pieces ds cps).map encodeAll := by
    rw [← List.forall₂_eq_eq_eq, List.forall₂_map_left_iff, List.forall₂_map_right_iff]
    exact hparts.imp fun p q hq => hq.cstrOf_eq
  constructor
  · intro p hp
    obtain ⟨q, -, hq⟩ := hmem p hp
    exact validString_iff.mpr ⟨q, hq⟩
  · intro p hp
    obtain ⟨q, hqs, hq⟩ := hmem p hp
    rw [hq.cstrOf_eq, ← hd.bytes, encodeAll_infix_iff hd.scalars hne hq.scalars]
    exact not_infix_of_mem_pieces hne cps q hqs
  · rw [htexts, ← hd.bytes, ← encodeAll_intercalate, intercalate_pieces hne]

/-- For a valid string and a valid delimiter that is not empty, `utf8_split` fills the array of its
first pass, with valid parts that do not contain the delimiter and that it joins to the string. The
array is one that can be allocated: its size is that of an object. -/
theorem utf8Split_splits (hs : ValidString s) (hd : isValidUtf8 delim.mem = some true)
    (hne : delim.bytes ≠ [])
    (halloc : ∀ n, countParts s delim.mem delim.bytes.length (s.length + 1) 0 1 = some n →
      n * 8 < 2 ^ 64) :
    ∃ n parts, countParts s delim.mem delim.bytes.length (s.length + 1) 0 1 = some n ∧
      utf8Split s delim.mem = some (some parts) ∧ parts.length = n ∧
      SplitsInto (cstrOf s.data) delim.bytes parts := by
  obtain ⟨cps, h⟩ := validString_iff.mp hs
  obtain ⟨ds, hds, hbytes⟩ := (isValidUtf8_iff delim.nulFree).mp hd
  have henc : Encodes delim ds := ⟨hds, hbytes⟩
  have hdne : ds ≠ [] := by
    rintro rfl
    exact hne hbytes.symm
  have hfuel : cps.length < s.length + 1 := by
    have hle := length_le_encodeAll h.scalars
    rw [h.length]
    omega
  have hcount : countParts s delim.mem delim.bytes.length (s.length + 1) 0 1 =
      some (CLib.pieces ds cps).length := by
    have hstart : Represents s ([] ++ cps) := h
    have hpass := countParts_pieces henc hdne hstart hfuel 0
    rwa [encodeAll_nil, List.length_nil, Nat.zero_add, Nat.zero_add] at hpass
  have hslots : (CLib.pieces ds cps).length * 8 % 2 ^ 64 / 8 = (CLib.pieces ds cps).length := by
    rw [Nat.mod_eq_of_lt (halloc _ hcount), Nat.mul_div_cancel _ (by decide)]
  have hstart : Represents s ([] ++ [] ++ cps) := h
  obtain ⟨parts, hrun, hparts⟩ := splitLoop_pieces (a := ⟨(CLib.pieces ds cps).length, []⟩) henc hdne
    hstart hfuel (by rw [List.length_nil, Nat.zero_add])
  rw [modifyHead_nil_append] at hparts
  refine ⟨_, parts, hcount, ?_, hparts.length_eq, ?_⟩
  · have hvalid := (utf8ValidByteCount_eq delim).1
    rw [henc.validLen_eq] at hvalid
    rw [utf8Split, hvalid, Option.bind_some, if_neg (List.length_eq_zero_iff.not.mpr hne), hcount,
      Option.bind_some, hslots]
    rw [List.append_nil, encodeAll_nil, List.length_nil] at hrun
    rw [hrun]
    rfl
  · rw [h.cstrOf_eq]
    exact splitsInto_of_pieces henc hdne hparts

/-- An accented letter on either side of a comma, and nothing behind the second comma. -/
theorem utf8Split_splits_comma : ∃ n parts,
    countParts ⟨[0xC3, 0xA9, 0x2C, 0x61, 0x2C, 0], 5, 4, 5⟩ [0x2C, 0] 1 6 0 1 = some n ∧
      utf8Split ⟨[0xC3, 0xA9, 0x2C, 0x61, 0x2C, 0], 5, 4, 5⟩ [0x2C, 0] = some (some parts) ∧
      parts.length = n ∧ SplitsInto [0xC3, 0xA9, 0x2C, 0x61, 0x2C] [0x2C] parts := by
  have hs : ValidString ⟨[0xC3, 0xA9, 0x2C, 0x61, 0x2C, 0], 5, 4, 5⟩ :=
    ⟨⟨by decide, by decide, by decide⟩, by decide, by decide, by decide⟩
  have hcount : countParts ⟨[0xC3, 0xA9, 0x2C, 0x61, 0x2C, 0], 5, 4, 5⟩ [0x2C, 0] 1 6 0 1 =
      some 3 := by decide +kernel
  have hd : isValidUtf8 (CString.mem ⟨[0x2C], by decide⟩) = some true := by decide
  refine utf8Split_splits hs hd (by decide) ?_
  intro n hn
  obtain rfl : 3 = n := Option.some.inj (hcount.symm.trans hn)
  decide

end Solidc.Unicode
