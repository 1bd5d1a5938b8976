import Solidc.Unicode.Texts

/-! # Copies of arbitrary strings

`utf8_valid_byte_count` skips malformed bytes wherever they are and returns a total; `utf8_copy`,
`utf8_new` and `utf8_append` take that many bytes from the beginning of the string. They store the
sequences that were counted when no malformed byte stands in front of one of these.

* `validSequences` — the sequences that are counted, one after the other;
* `validLen_eq` — their total;
* `validSequences_append` — a sequence is recognised by its own bytes.
-/

namespace Solidc.Unicode

open CLib

/-- `utf8_copy`; a `NULL` result is a `none` inside. -/
def utf8Copy (data : CMem) (mallocOk : Bool) : Option (Option CMem) :=
  (utf8ValidByteCount data).bind fun length =>
  if mallocOk = false then some none
  else
    (peek data 0 length).bind fun bytes =>
    (poke (length + 1) [] 0 bytes).bind fun copy =>
    (poke (length + 1) copy length [0]).map some

/-! ## The sequences that are counted -/

/-- The length that a leading byte announces to `utf8_valid_byte_count`, 0 for other bytes. -/
def leadLen (byte : UInt8) : Nat :=
  if byte.toNat &&& 0x80 = 0 then 1
  else if byte.toNat &&& 0xE0 = 0xC0 then 2
  else if byte.toNat &&& 0xF0 = 0xE0 then 3
  else if byte.toNat &&& 0xF8 = 0xF0 then 4
  else 0

/-- The length of the structurally valid sequence at the start of a string, 0 if there is none. -/
def sequenceLen : List UInt8 → Nat
  | [] => 0
  | b :: t =>
    if leadLen b ≤ t.length + 1 ∧ (t.take (leadLen b - 1)).all isCont then leadLen b else 0

theorem sequenceLen_le (t : List UInt8) : sequenceLen t ≤ t.length := by
  cases t with
  | nil => exact Nat.le_refl _
  | cons b t =>
    rw [sequenceLen]
    split_ifs with h
    · exact h.1
    · exact Nat.zero_le _

/-- The sequences of a string; a byte that starts none is skipped. -/
def validSequences (s : List UInt8) : List (List UInt8) :=
  match s with
  | [] => []
  | b :: t =>
    if _h : sequenceLen (b :: t) = 0 then validSequences t
    else
      (b :: t).take (sequenceLen (b :: t)) :: validSequences ((b :: t).drop (sequenceLen (b :: t)))
termination_by s.length
decreasing_by
  · exact Nat.lt_succ_self _
  · rw [List.length_drop, List.length_cons]
    omega

/-- A structurally valid sequence and nothing else. -/
def Sequence (q : List UInt8) : Prop := q ≠ [] ∧ sequenceLen q = q.length

/-- No malformed byte stands in front of a sequence: the string is sequences, and then bytes of
which none starts one. -/
def InvalidLast (s : List UInt8) : Prop :=
  ∃ seqs bad, s = List.flatten seqs ++ bad ∧ (∀ q ∈ seqs, Sequence q) ∧
    ∀ j, sequenceLen (bad.drop j) = 0

/-- What `utf8_copy`, `utf8_new` and `utf8_append` are to store. -/
def validContent (s : List UInt8) : List UInt8 := (validSequences s).flatten

/-- The three functions store the sequences counted, all bytes of which are counted again. A new
string may be refused for its size, and so may the growth of one that is appended to. -/
structure KeepsSequences (d : CString) : Prop where
  copy : ∃ buf, utf8Copy d.mem true = some (some buf) ∧ cstr buf = some (validContent d.bytes)
  new : utf8New d.mem = some none ∨
    ∃ s, utf8New d.mem = some (some s) ∧ Holds s (validContent d.bytes)
  append : ∀ s text, Holds s text → utf8Append s d.mem = some (s, false) ∨
    ∃ s', utf8Append s d.mem = some (s', true) ∧ Holds s' (text ++ validContent d.bytes)
  recount : utf8ValidByteCount (validContent d.bytes ++ [0]) =
    some (validContent d.bytes).length

variable {s t q bad : List UInt8} {seqs : List (List UInt8)} {b : UInt8}

theorem validSequences_nil : validSequences [] = [] := by
  rw [validSequences]

theorem validSequences_skip (h : sequenceLen (b :: t) = 0) :
    validSequences (b :: t) = validSequences t := by
  rw [validSequences, dif_pos h]

theorem validSequences_take (h : sequenceLen (b :: t) ≠ 0) :
    validSequences (b :: t) =
      (b :: t).take (sequenceLen (b :: t)) ::
        validSequences ((b :: t).drop (sequenceLen (b :: t))) := by
  rw [validSequences, dif_neg h]

/-! ## The total -/

/-- A turn of the loop passes over a sequence and counts it, or skips a byte. -/
theorem validByteCountLoop_turn (h0 : 0 ∉ b :: t) (fuel count : Nat) :
    validByteCountLoop (fuel + 1) (b :: t ++ [0]) count =
      validByteCountLoop fuel ((b :: t).drop (max 1 (sequenceLen (b :: t))) ++ [0])
        (count + sequenceLen (b :: t)) := by
  have hb : b ≠ 0 := fun h => h0 (h ▸ List.mem_cons_self)
  have hnul : ∀ c ∈ t, c ≠ 0 := fun c hc h => h0 (h ▸ List.mem_cons_of_mem b hc)
  rw [validByteCountLoop, List.cons_append, rd_cons_zero, Option.bind_some, if_neg hb]
  -- the four tests of the lead byte, in the order of the source
  by_cases h1 : b.toNat &&& 0x80 = 0
  · have hlead : leadLen b = 1 := if_pos h1
    rw [if_pos h1]
    simp [hlead, sequenceLen]
  rw [if_neg h1]
  by_cases h2 : b.toNat &&& 0xE0 = 0xC0
  · have hlead : leadLen b = 2 := by simp [leadLen, h1, h2]
    rw [if_pos h2]
    rcases t with _ | ⟨b1, t⟩
    · simp [hlead, sequenceLen]
    · have hb1 := hnul b1 (by simp)
      by_cases hc : isCont b1 = true <;> simp [hb1, hc, hlead, sequenceLen]
  rw [if_neg h2]
  by_cases h3 : b.toNat &&& 0xF0 = 0xE0
  · have hlead : leadLen b = 3 := by simp [leadLen, h1, h2, h3]
    rw [if_pos h3]
    rcases t with _ | ⟨b1, _ | ⟨b2, t⟩⟩
    · simp [hlead, sequenceLen]
    · simp [hlead, sequenceLen]
    · have hb1 := hnul b1 (by simp)
      have hb2 := hnul b2 (by simp)
      by_cases hc : isCont b1 = true ∧ isCont b2 = true <;>
        simp [hb1, hb2, hc, hlead, sequenceLen]
  rw [if_neg h3]
  by_cases h4 : b.toNat &&& 0xF8 = 0xF0
  · have hlead : leadLen b = 4 := by simp [leadLen, h1, h2, h3, h4]
    rw [if_pos h4]
    rcases t with _ | ⟨b1, _ | ⟨b2, _ | ⟨b3, t⟩⟩⟩
    · simp [hlead, sequenceLen]
    · simp [hlead, sequenceLen]
    · simp [hlead, sequenceLen]
    · have hb1 := hnul b1 (by simp)
      have hb2 := hnul b2 (by simp)
      have hb3 := hnul b3 (by simp)
      by_cases hc : isCont b1 = true ∧ isCont b2 = true ∧ isCont b3 = true <;>
        simp [hb1, hb2, hb3, hc, hlead, sequenceLen, and_assoc]
  · have hlead : leadLen b = 0 := by simp [leadLen, h1, h2, h3, h4]
    rw [if_neg h4]
    simp [hlead, sequenceLen]

/-- `utf8_valid_byte_count` is the total of the sequences. -/
theorem validByteCountLoop_eq {fuel : Nat} (count : Nat) (h0 : 0 ∉ s) (hfuel : s.length < fuel) :
    validByteCountLoop fuel (s ++ [0]) count = some (count + (validContent s).length) := by
  induction fuel generalizing s count with
  | zero => omega
  | succ fuel ih =>
    cases s with
    | nil => simp [validByteCountLoop, validContent, validSequences_nil]
    | cons b t =>
      have hrest := not_mem_drop h0 (max 1 (sequenceLen (b :: t)))
      have hlen := sequenceLen_le (b :: t)
      rw [List.length_cons] at hfuel
      have hless : ((b :: t).drop (max 1 (sequenceLen (b :: t)))).length < fuel := by
        rw [List.length_drop, List.length_cons]
        omega
      rw [validByteCountLoop_turn h0, ih _ hrest hless]
      by_cases h : sequenceLen (b :: t) = 0
      · -- a byte is skipped
        rw [h, Nat.max_eq_left (Nat.zero_le 1), List.drop_one, List.tail_cons, validContent,
          validContent, validSequences_skip h, Nat.add_zero]
      · rw [Nat.max_eq_right (Nat.one_le_iff_ne_zero.mpr h), validContent, validContent,
          validSequences_take h, List.flatten_cons, List.length_append, List.length_take,
          Nat.min_eq_left hlen, Nat.add_assoc]

theorem utf8ValidByteCount_content (h0 : 0 ∉ s) :
    utf8ValidByteCount (s ++ [0]) = some (validContent s).length := by
  have h := validByteCountLoop_eq 0 h0 (show s.length < (s ++ [0]).length by simp)
  rwa [Nat.zero_add] at h

theorem validLen_eq (d : CString) : validLen d = (validContent d.bytes).length := by
  rw [validLen, CString.mem, utf8ValidByteCount_content d.nulFree, Option.getD_some]

/-! ## Where the sequences are -/

/-- A sequence is recognised by its own bytes. -/
theorem sequenceLen_append (h : sequenceLen q ≠ 0) (rest : List UInt8) :
    sequenceLen (q ++ rest) = sequenceLen q := by
  cases q with
  | nil => exact absurd rfl h
  | cons b t =>
    rw [sequenceLen] at h
    have hq := (ite_ne_right_iff.mp h).1
    have hlead : leadLen b - 1 ≤ t.length := by omega
    rw [List.cons_append, sequenceLen, sequenceLen, if_pos hq, if_pos]
    rw [List.take_append_of_le_length hlead, List.length_append]
    exact ⟨by omega, hq.2⟩

/-- The bytes of the sequence at the start of a string are a sequence. -/
theorem sequence_take (h : sequenceLen s ≠ 0) : Sequence (s.take (sequenceLen s)) := by
  have hle := sequenceLen_le s
  refine ⟨?_, ?_⟩
  · intro hnil
    have hlen := congrArg List.length hnil
    rw [List.length_take, Nat.min_eq_left hle] at hlen
    exact h hlen
  · rw [List.length_take, Nat.min_eq_left hle]
    cases s with
    | nil => exact absurd rfl h
    | cons b t =>
      have hn := h
      rw [sequenceLen] at hn
      have hq := (ite_ne_right_iff.mp hn).1
      have hlead := (ite_ne_right_iff.mp hn).2
      have hval : sequenceLen (b :: t) = leadLen b := by rw [sequenceLen, if_pos hq]
      obtain ⟨n, hsucc⟩ := Nat.exists_eq_succ_of_ne_zero hlead
      rw [hval, hsucc, List.take_succ_cons, sequenceLen, hsucc, if_pos]
      rw [hsucc] at hq
      simp only [Nat.succ_eq_add_one, Nat.add_sub_cancel] at hq ⊢
      rw [List.take_take, Nat.min_self, List.length_take]
      exact ⟨by omega, hq.2⟩

theorem sequence_of_mem (s : List UInt8) : ∀ q ∈ validSequences s, Sequence q := by
  fun_induction validSequences s with
  | case1 => exact fun q hq => absurd hq List.not_mem_nil
  | case2 b t h ih => exact ih
  | case3 b t h ih =>
    intro q hq
    rcases List.mem_cons.mp hq with rfl | hq
    · exact sequence_take h
    · exact ih q hq

/-- Sequences in front of a string are its first ones. -/
theorem validSequences_append (h : ∀ q ∈ seqs, Sequence q) (bad : List UInt8) :
    validSequences (seqs.flatten ++ bad) = seqs ++ validSequences bad := by
  induction seqs with
  | nil => rfl
  | cons q seqs ih =>
    obtain ⟨hne, hlen⟩ := h q List.mem_cons_self
    obtain ⟨b, t, rfl⟩ := List.exists_cons_of_ne_nil hne
    have hpos : sequenceLen (b :: t) ≠ 0 := by
      rw [hlen]
      exact Nat.succ_ne_zero _
    have hall := sequenceLen_append hpos (seqs.flatten ++ bad)
    rw [List.cons_append] at hall
    rw [List.flatten_cons, List.append_assoc, List.cons_append,
      validSequences_take (by rw [hall]; exact hpos), hall, hlen, ← List.cons_append,
      List.take_left, List.drop_left, ih fun q hq => h q (List.mem_cons_of_mem _ hq)]
    rfl

/-- A string without sequences is skipped byte by byte. -/
theorem validSequences_eq_nil : validSequences bad = [] ↔ ∀ j, sequenceLen (bad.drop j) = 0 := by
  induction bad with
  | nil => simp [validSequences_nil, sequenceLen]
  | cons b t ih =>
    constructor
    · intro h j
      by_cases hb : sequenceLen (b :: t) = 0
      · rw [validSequences_skip hb] at h
        cases j with
        | zero => exact hb
        | succ j => exact ih.mp h j
      · rw [validSequences_take hb] at h
        cases h
    · intro h
      rw [validSequences_skip (h 0)]
      exact ih.mpr fun j => h (j + 1)

/-- The content is at the front of the string when no malformed byte is. -/
theorem content_prefix_iff : validContent s <+: s ↔ InvalidLast s := by
  constructor
  · rintro ⟨bad, hbad⟩
    refine ⟨validSequences s, bad, hbad.symm, sequence_of_mem s, ?_⟩
    -- the sequences of `s` are those of its front and those of the rest
    have hsplit := validSequences_append (sequence_of_mem s) bad
    rw [← validContent, hbad] at hsplit
    exact validSequences_eq_nil.mp (List.self_eq_append_right.mp hsplit)
  · rintro ⟨seqs, bad, rfl, hseqs, hbad⟩
    rw [validContent, validSequences_append hseqs, validSequences_eq_nil.mpr hbad, List.append_nil]
    exact List.prefix_append _ _

theorem validContent_idem (s : List UInt8) : validContent (validContent s) = validContent s := by
  have h := validSequences_append (sequence_of_mem s) []
  rw [validSequences_nil, List.append_nil, List.append_nil] at h
  rw [validContent, validContent, h]

theorem zero_not_mem_validContent (h0 : 0 ∉ s) : 0 ∉ validContent s := by
  have hsub : ∀ q ∈ validSequences s, 0 ∉ q := by
    fun_induction validSequences s with
    | case1 => exact fun q hq => absurd hq List.not_mem_nil
    | case2 b t h ih => exact ih fun hm => h0 (List.mem_cons_of_mem b hm)
    | case3 b t h ih =>
      intro q hq
      rcases List.mem_cons.mp hq with rfl | hq
      · exact not_mem_take h0 _
      · exact ih (not_mem_drop h0 _) q hq
  intro hmem
  obtain ⟨q, hq, hz⟩ := List.mem_flatten.mp hmem
  exact hsub q hq hz

/-! ## The copies -/

/-- `utf8_copy` copies as many bytes as were counted. -/
theorem utf8Copy_eq (d : CString) :
    utf8Copy d.mem true = some (some (d.bytes.take (validLen d) ++ [0])) := by
  have hlen := length_take_validLen d
  have hfirst : poke (validLen d + 1) [] 0 (d.bytes.take (validLen d)) =
      some (d.bytes.take (validLen d)) := by
    rw [poke_eq (by omega) (Nat.zero_le _)]
    simp
  have hfits : (d.bytes.take (validLen d)).length + [(0 : UInt8)].length ≤ validLen d + 1 := by
    simp [hlen]
  have hsecond : poke (validLen d + 1) (d.bytes.take (validLen d) ++ [])
      (d.bytes.take (validLen d)).length [0] = some (d.bytes.take (validLen d) ++ [0]) :=
    poke_append hfits
  rw [List.append_nil, hlen] at hsecond
  simp only [utf8Copy, (utf8ValidByteCount_eq d).1, Option.bind_some, Bool.true_eq_false, if_false,
    peek_mem, hfirst, hsecond, Option.map_some]

theorem KeepsSequences.invalidLast {d : CString} (h : KeepsSequences d) : InvalidLast d.bytes := by
  obtain ⟨buf, hcopy, hcontent⟩ := h.copy
  rw [utf8Copy_eq, Option.some.injEq, Option.some.injEq] at hcopy
  rw [← hcopy, cstr_append (not_mem_take d.nulFree _), Option.some.injEq] at hcontent
  rw [← content_prefix_iff, ← hcontent]
  exact List.take_prefix _ _

/-- The sequences that were counted are what is stored exactly when no malformed byte stands in
front of one of them. -/
theorem keepsSequences_iff (d : CString) : KeepsSequences d ↔ InvalidLast d.bytes := by
  constructor
  · intro h
    exact h.invalidLast
  · intro h
    have hkept : d.bytes.take (validLen d) = validContent d.bytes := by
      rw [validLen_eq]
      exact (List.prefix_iff_eq_take.mp (content_prefix_iff.mpr h)).symm
    refine ⟨?copy, ?new, ?append, ?recount⟩
    case copy =>
      refine ⟨_, utf8Copy_eq d, ?_⟩
      rw [cstr_append (not_mem_take d.nulFree _), hkept]
    case new =>
      rcases utf8New_spec d with ⟨-, hnull⟩ | ⟨s, hnew, hs, -⟩
      · exact .inl hnull
      · exact .inr ⟨s, hnew, hkept ▸ hs⟩
    case append =>
      intro s text hs
      rcases utf8Append_spec hs d with ⟨-, hfull⟩ | ⟨s', happ, hs', -⟩
      · exact .inl hfull
      · exact .inr ⟨s', happ, hkept ▸ hs'⟩
    case recount =>
      rw [utf8ValidByteCount_content (zero_not_mem_validContent d.nulFree), validContent_idem]

/-- A stray continuation byte in front of a letter is stored in place of the letter. -/
theorem not_keepsSequences : ¬ KeepsSequences ⟨[0x80, 0x61], by decide⟩ := by
  intro h
  obtain ⟨buf, hcopy, hcontent⟩ := h.copy
  have hbuf : utf8Copy [0x80, 0x61, 0] true = some (some [0x80, 0]) := by decide +kernel
  obtain rfl : [0x80, 0] = buf := Option.some.inj (Option.some.inj (hbuf.symm.trans hcopy))
  -- the byte that was stored starts no sequence, so it was not counted
  have hskip : validContent [0x80, 0x61] = [0x61] := by
    rw [validContent, validSequences_skip (by decide), validSequences_take (by decide)]
    simp [sequenceLen, leadLen, validSequences_nil]
  rw [hskip] at hcontent
  exact absurd hcontent (by decide)

end Solidc.Unicode
