import Solidc.Unicode.RoundTrip
import Solidc.Unicode.Sync

/-! # String objects as lists of scalar values

`Represents s cps` relates a string object to a list of Unicode scalar values. The mutators work
on bytes; on valid data they work on whole characters:

* `pieces_encodeAll` — `utf8_remove` cuts where the characters end;
* `findSub_encodeAll` — UTF-8 is self-synchronising: the bytes of a non-empty list of characters
  are found only where these characters are;
* `utf8String_refines` — each operation is its counterpart on lists.
-/

namespace Solidc.Unicode

open CLib

def Scalars (cps : List Nat) : Prop := ∀ c ∈ cps, NonzeroScalar c

structure Represents (s : Utf8String) (cps : List Nat) : Prop extends Holds s (encodeAll cps) where
  scalars : Scalars cps
  counted : s.count = cps.length

/-- An argument that encodes a list. -/
structure Encodes (d : CString) (cps : List Nat) : Prop where
  scalars : Scalars cps
  bytes : encodeAll cps = d.bytes

/-- A string object of valid UTF-8 with exact metadata, whose written bytes are in its buffer. -/
structure ValidString (s : Utf8String) : Prop extends InSync s where
  valid : isValidUtf8 s.data = some true
  inBuffer : s.data.length ≤ s.capacity + 1
  allocated : s.capacity ≤ maxCapacity

/-- The byte index of the character at `k`. -/
def boundary (cps : List Nat) (k : Nat) : Nat := (encodeAll (cps.take k)).length

/-- The first occurrence is replaced. -/
def replaceFirst (old new cps : List Nat) : List Nat :=
  match findSub old cps with
  | none => cps
  | some i => cps.take i ++ new ++ cps.drop (i + old.length)

variable {s s' : Utf8String} {cps ds old new : List Nat} {d : CString} {k n : Nat}

/-! ## Encodings of lists -/

theorem encodeAll_append (cps ds : List Nat) :
    encodeAll (cps ++ ds) = encodeAll cps ++ encodeAll ds := List.flatMap_append

theorem Scalars.append (h : Scalars cps) (h' : Scalars ds) : Scalars (cps ++ ds) := by
  intro c hc
  rcases List.mem_append.mp hc with hc | hc
  · exact h c hc
  · exact h' c hc

theorem Scalars.take (h : Scalars cps) (k : Nat) : Scalars (cps.take k) :=
  fun c hc => h c (List.take_subset k cps hc)

theorem Scalars.drop (h : Scalars cps) (k : Nat) : Scalars (cps.drop k) :=
  fun c hc => h c (List.drop_subset k cps hc)

theorem Scalars.tail {c : Nat} (h : Scalars (c :: cps)) : Scalars cps :=
  fun x hx => h x (List.mem_cons_of_mem c hx)

/-- An encoding is one leading byte and continuation bytes. -/
theorem encoding_eq_cons {c : Nat} (h : NonzeroScalar c) : ∃ b l, encoding c = b :: l ∧
    isCont b = false ∧ charLen b = (encoding c).length ∧ ∀ x ∈ l, isCont x = true := by
  have hspell := spells_encoding h
  have hlen := charLength_spells hspell []
  generalize encoding c = l at *
  cases hspell with
  | @one b hc hpos hlt =>
    rw [List.append_nil, utf8CharLength_cons] at hlen
    exact ⟨b, [], rfl, not_isCont (by omega), Option.some.inj hlen, by simp⟩
  | @two b0 b1 h0 h0' h1 hc hlo =>
    rw [List.append_nil, utf8CharLength_cons] at hlen
    exact ⟨b0, [b1], rfl, not_isCont (by omega), Option.some.inj hlen, by simp [isCont_of h1]⟩
  | @three b0 b1 b2 h0 h0' h1 h2 hc hlo hsur =>
    rw [List.append_nil, utf8CharLength_cons] at hlen
    exact ⟨b0, [b1, b2], rfl, not_isCont (by omega), Option.some.inj hlen,
      by simp [isCont_of h1, isCont_of h2]⟩
  | @four b0 b1 b2 b3 h0 h0' h1 h2 h3 hc hlo hhi =>
    rw [List.append_nil, utf8CharLength_cons] at hlen
    exact ⟨b0, [b1, b2, b3], rfl, not_isCont (by omega), Option.some.inj hlen,
      by simp [isCont_of h1, isCont_of h2, isCont_of h3]⟩

theorem leads_encodeAll (h : Scalars cps) : leads (encodeAll cps) = cps.length := by
  induction cps with
  | nil => rfl
  | cons c cps ih =>
    obtain ⟨b, l, heq, hb, -, hl⟩ := encoding_eq_cons (h c List.mem_cons_self)
    have hzero : leads l = 0 := by
      rw [leads, List.countP_eq_zero]
      intro x hx
      simp [hl x hx]
    have hone : leads (b :: l) = leads l + 1 := by
      simp [leads, hb]
    rw [encodeAll_cons, leads_append, ih h.tail, heq, hone, hzero, List.length_cons]
    omega

theorem zero_not_mem_encodeAll (h : Scalars cps) : 0 ∉ encodeAll cps := by
  intro hmem
  obtain ⟨c, hc, hb⟩ := List.mem_flatMap.mp hmem
  exact (spells_encoding (h c hc)).ne_zero 0 hb rfl

/-- All bytes of a valid argument are stored. -/
theorem Encodes.validLen_eq (h : Encodes d ds) : validLen d = d.bytes.length := by
  have hle := length_le_encodeAll h.scalars
  have hcount := validByteCountLoop_encodeAll h.scalars d.mem.length
    (by rw [CString.mem, List.length_append, ← h.bytes]; simp; omega) 0
  rw [h.bytes, Nat.zero_add] at hcount
  exact Option.some.inj ((utf8ValidByteCount_eq d).1.symm.trans hcount)

theorem Encodes.take_validLen (h : Encodes d ds) :
    d.bytes.take (validLen d) = encodeAll ds := by
  rw [h.validLen_eq, List.take_length, h.bytes]

theorem Encodes.leads_eq (h : Encodes d ds) : leads d.bytes = ds.length := by
  rw [← h.bytes, leads_encodeAll h.scalars]

/-- Cut by the table, the encoding of a list falls into its characters. -/
theorem pieces_encodeAll (h : Scalars cps) (n : Nat) :
    pieces n (encodeAll cps) = (cps.take n).map encoding := by
  induction n generalizing cps with
  | zero => simp [pieces]
  | succ n ih =>
    cases cps with
    | nil => simp [pieces]
    | cons c cps =>
      obtain ⟨b, l, heq, -, hlen, -⟩ := encoding_eq_cons (h c List.mem_cons_self)
      have hne : charLen b ≠ 0 := by
        rw [hlen, heq]
        simp
      rw [encodeAll_cons, heq, List.cons_append, pieces, if_neg hne, hlen, ← List.cons_append,
        ← heq, List.take_left, List.drop_left, ih h.tail, List.take_succ_cons, List.map_cons]

theorem pieceBytes_encodeAll (h : Scalars cps) (n : Nat) :
    pieceBytes n (encodeAll cps) = encodeAll (cps.take n) := by
  rw [pieceBytes, pieces_encodeAll h, encodeAll, List.flatMap_def]

theorem encodeAll_take (cps : List Nat) (k : Nat) :
    (encodeAll cps).take (boundary cps k) = encodeAll (cps.take k) := by
  conv_lhs => rw [← List.take_append_drop k cps, encodeAll_append]
  rw [boundary, List.take_append_drop, List.take_left]

theorem encodeAll_drop (cps : List Nat) (k : Nat) :
    (encodeAll cps).drop (boundary cps k) = encodeAll (cps.drop k) := by
  conv_lhs => rw [← List.take_append_drop k cps, encodeAll_append]
  rw [boundary, List.take_append_drop, List.drop_left]

theorem boundary_add_drop (cps : List Nat) (k : Nat) :
    boundary cps k + (encodeAll (cps.drop k)).length = (encodeAll cps).length := by
  rw [boundary, ← List.length_append, ← encodeAll_append, List.take_append_drop]

theorem boundary_add (cps : List Nat) (k n : Nat) :
    boundary cps k + (encodeAll ((cps.drop k).take n)).length = boundary cps (k + n) := by
  rw [boundary, boundary, ← List.length_append, ← encodeAll_append, List.take_add]

/-- There are bytes behind every boundary but the last. -/
theorem boundary_lt_iff (h : Scalars cps) (hk : k ≤ cps.length) :
    boundary cps k < (encodeAll cps).length ↔ k < cps.length := by
  have hadd := boundary_add_drop cps k
  constructor
  · intro hlt
    rcases Nat.lt_or_eq_of_le hk with hk | rfl
    · exact hk
    · rw [List.drop_length, encodeAll_nil, List.length_nil] at hadd
      omega
  · intro hlt
    have hpos := length_le_encodeAll (h.drop k)
    rw [List.length_drop] at hpos
    omega

/-! ## Self-synchronisation -/

/-- The characters of a prefix are a prefix of the characters. -/
theorem encodeAll_prefix_iff (hold : Scalars old) (h : Scalars cps) :
    encodeAll old <+: encodeAll cps ↔ old <+: cps := by
  constructor
  · intro hp
    induction old generalizing cps with
    | nil => exact List.nil_prefix
    | cons o old ih =>
      obtain ⟨p, hp⟩ := hp
      have ho := hold o List.mem_cons_self
      cases cps with
      | nil =>
        have hpos := (spells_encoding ho).length_pos
        have hlen := congrArg List.length hp
        rw [encodeAll_cons] at hlen
        simp only [List.length_append, encodeAll_nil, List.length_nil] at hlen
        omega
      | cons c cps =>
        have hc := spells_encoding (h c List.mem_cons_self)
        rw [encodeAll_cons, encodeAll_cons, List.append_assoc] at hp
        obtain ⟨rfl, hrest⟩ := spells_head hc ho hp
        exact List.cons_prefix_cons.mpr ⟨rfl, ih hold.tail h.tail ⟨p, hrest⟩⟩
  · rintro ⟨p, rfl⟩
    exact ⟨encodeAll p, (encodeAll_append old p).symm⟩

/-- No occurrence starts inside a character. -/
theorem not_prefix_inside {c j : Nat} {p : List UInt8} (hold : Scalars old) (hne : old ≠ [])
    (hc : NonzeroScalar c) (hpos : 0 < j) (hj : j < (encoding c).length) :
    ¬ encodeAll old <+: (encoding c ++ p).drop j := by
  intro hp
  obtain ⟨o, old, rfl⟩ := List.exists_cons_of_ne_nil hne
  obtain ⟨b, l, heq, -, -, hl⟩ := encoding_eq_cons hc
  obtain ⟨b', l', heq', hb', -, -⟩ := encoding_eq_cons (hold o List.mem_cons_self)
  obtain ⟨q, hq⟩ := hp
  obtain ⟨j, rfl⟩ := Nat.exists_eq_succ_of_ne_zero (Nat.ne_of_gt hpos)
  rw [heq, List.length_cons] at hj
  -- the byte at `j` continues `c`, the first byte of the needle leads
  have hhead : (l.drop j ++ p).head? = some b' := by
    have hdrop : (encoding c ++ p).drop (j + 1) = l.drop j ++ p := by
      rw [heq, List.cons_append, List.drop_succ_cons, List.drop_append_of_le_length (by omega)]
    rw [← hdrop, ← hq, encodeAll_cons, heq']
    rfl
  obtain ⟨x, l₂, hx⟩ : ∃ x l₂, l.drop j = x :: l₂ :=
    List.exists_cons_of_length_pos (by rw [List.length_drop]; omega)
  rw [hx] at hhead
  obtain rfl : x = b' := Option.some.inj hhead
  have hcont := hl x (List.drop_subset j l (hx ▸ List.mem_cons_self))
  rw [hb'] at hcont
  cases hcont

/-- The bytes are found where the characters are. -/
theorem findSub_encodeAll (hold : Scalars old) (hne : old ≠ []) (h : Scalars cps) :
    findSub (encodeAll old) (encodeAll cps) = (findSub old cps).map (boundary cps) := by
  have hbytes : encodeAll old ≠ [] := by
    obtain ⟨o, old, rfl⟩ := List.exists_cons_of_ne_nil hne
    obtain ⟨b, l, heq, -⟩ := encoding_eq_cons (hold o List.mem_cons_self)
    simp [heq]
  induction cps with
  | nil => simp [findSub, hne, hbytes]
  | cons c cps ih =>
    have hc := h c List.mem_cons_self
    obtain ⟨b, l, heq, -⟩ := encoding_eq_cons hc
    by_cases hp : old <+: c :: cps
    · have hp' := (encodeAll_prefix_iff hold h).mpr hp
      have hzero : findSub (encodeAll old) (encodeAll (c :: cps)) = some 0 :=
        findSub_eq_some_iff.mpr ⟨Nat.zero_le _, hp', by simp⟩
      rw [hzero, findSub, if_pos hp]
      simp [boundary]
    · have hskip : findSub (encodeAll old) (encoding c ++ encodeAll cps) =
          (findSub (encodeAll old) (encodeAll cps)).map (· + (encoding c).length) := by
        apply findSub_append
        intro j hj
        rcases Nat.eq_zero_or_pos j with rfl | hpos
        · exact fun hp' => hp ((encodeAll_prefix_iff hold h).mp hp')
        · exact not_prefix_inside hold hne hc hpos hj
      rw [encodeAll_cons, hskip, ih h.tail, findSub, if_neg hp, Option.map_map, Option.map_map]
      congr 1
      funext i
      simp only [Function.comp_apply, boundary, List.take_succ_cons, encodeAll_cons,
        List.length_append]
      omega

/-! ## Validity -/

/-- The validator does not look behind the terminator. -/
theorem isValidUtf8Loop_rest {t rest : List UInt8} (h0 : 0 ∉ t) (fuel : Nat) :
    isValidUtf8Loop fuel (t ++ 0 :: rest) = isValidUtf8Loop fuel (t ++ [0]) := by
  induction fuel generalizing t with
  | zero => rfl
  | succ fuel ih =>
    have hskip : ∀ j ≤ t.length, isValidUtf8Loop fuel ((t ++ 0 :: rest).drop j) =
        isValidUtf8Loop fuel ((t ++ [0]).drop j) := by
      intro j hj
      rw [List.drop_append_of_le_length hj, List.drop_append_of_le_length hj]
      exact ih (not_mem_drop h0 j)
    cases t with
    | nil => rfl
    | cons b0 t =>
      have hb0 : b0 ≠ 0 := fun h => h0 (h ▸ List.mem_cons_self)
      rw [List.cons_append, List.cons_append] at hskip ⊢
      -- a sequence has up to four bytes, and stops at the terminator
      rcases lead_cases b0 with h1 | ⟨h2, h2'⟩ | ⟨h3, h3'⟩ | ⟨h4, h4'⟩ | hother
      · rw [isValidLoop_one hb0 h1, isValidLoop_one hb0 h1]
        exact hskip 1 (Nat.succ_le_succ (Nat.zero_le _))
      · rw [isValidLoop_two h2 h2', isValidLoop_two h2 h2']
        rcases t with _ | ⟨b1, t⟩
        · rfl
        · have htwo := hskip 2 (by simp)
          simp only [List.cons_append, List.drop_succ_cons, List.drop_zero] at htwo ⊢
          rw [htwo]
          rfl
      · rw [isValidLoop_three h3 h3', isValidLoop_three h3 h3']
        rcases t with _ | ⟨b1, _ | ⟨b2, t⟩⟩
        · rfl
        · rfl
        · have hthree := hskip 3 (by simp)
          simp only [List.cons_append, List.drop_succ_cons, List.drop_zero] at hthree ⊢
          rw [hthree]
          rfl
      · rw [isValidLoop_four h4 h4', isValidLoop_four h4 h4']
        rcases t with _ | ⟨b1, _ | ⟨b2, _ | ⟨b3, t⟩⟩⟩
        · rfl
        · rfl
        · rfl
        · have hfour := hskip 4 (by simp)
          simp only [List.cons_append, List.drop_succ_cons, List.drop_zero] at hfour ⊢
          rw [hfour]
          rfl
      · rw [isValidLoop_other hother, isValidLoop_other hother]

theorem isValidUtf8_iff {t rest : List UInt8} (h0 : 0 ∉ t) :
    isValidUtf8 (t ++ 0 :: rest) = some true ↔ ∃ cps, Scalars cps ∧ encodeAll cps = t := by
  obtain ⟨b, hb, hiff⟩ := isValidLoop_iff (t ++ 0 :: rest).length t h0 (by simp)
  rw [isValidUtf8, isValidUtf8Loop_rest h0, hb, Option.some.injEq]
  exact hiff

/-- The valid string objects are those that represent a list. -/
theorem validString_iff : ValidString s ↔ ∃ cps, Represents s cps := by
  constructor
  · intro h
    -- the bytes in front of the terminator
    have hnul : 0 ∈ s.data := by
      have hstrlen := h.strlen
      unfold cstr at hstrlen
      split at hstrlen
      · assumption
      · cases hstrlen
    obtain ⟨text, rest, hdata, h0⟩ := List.eq_append_cons_of_mem hnul
    have hlength := h.strlen
    have hcount := h.codepoints
    have hvalid := h.valid
    rw [hdata, cstr_append h0, Option.map_some, Option.some.injEq] at hlength
    rw [hdata, utf8CountCodepoints_eq h0, Option.some.injEq] at hcount
    rw [hdata] at hvalid
    obtain ⟨cps, hcps, rfl⟩ := (isValidUtf8_iff h0).mp hvalid
    refine ⟨cps, ⟨⟨rest, hdata⟩, h0, hlength.symm, h.inBuffer, h.allocated⟩, hcps, ?_⟩
    rw [← hcount, leads_encodeAll hcps]
  · rintro ⟨cps, h⟩
    obtain ⟨rest, hdata⟩ := h.data
    have htracked : Tracked s := ⟨_, h.toHolds, by rw [h.counted, leads_encodeAll h.scalars]⟩
    refine ⟨htracked.inSync, ?_, h.size, h.fits⟩
    rw [hdata]
    exact (isValidUtf8_iff h.nulFree).mpr ⟨cps, h.scalars, rfl⟩

/-! ## The operations -/

/-- A text that is again an encoding, with the count of its characters. -/
theorem Holds.represents {text : List UInt8} (h : Holds s text) {m : Nat}
    (hcps : Scalars cps) (htext : text = encodeAll cps) (hcount : s.count = m % 2 ^ 64)
    (hm : m = cps.length) : Represents s cps := by
  subst htext
  have hle := length_le_encodeAll hcps
  have hlt := h.length_lt
  refine ⟨h, hcps, ?_⟩
  rw [hcount, hm, Nat.mod_eq_of_lt (by omega)]

theorem append_represents (h : Represents s cps) (hd : Encodes d ds)
    (halloc : utf8StringGrow s (s.length + d.len) ≠ none) :
    ∃ s', utf8Append s d.mem = some (s', true) ∧ Represents s' (cps ++ ds) := by
  rcases utf8Append_spec h.toHolds d with ⟨hgrow, -⟩ | ⟨s', heq, hs', hcount⟩
  · rw [hd.validLen_eq, ← h.length] at hgrow
    exact absurd hgrow halloc
  · refine ⟨s', heq, hs'.represents (h.scalars.append hd.scalars) ?_ hcount ?_⟩
    · rw [hd.take_validLen, encodeAll_append]
    · rw [h.counted, hd.leads_eq, List.length_append]

theorem insert_represents (h : Represents s cps) (hd : Encodes d ds) (hk : k ≤ cps.length)
    (halloc : utf8StringGrow s (s.length + d.len) ≠ none) :
    ∃ s', utf8Insert s (boundary cps k) d.mem = some (s', true) ∧
      Represents s' (cps.take k ++ ds ++ cps.drop k) := by
  have hindex : boundary cps k ≤ (encodeAll cps).length := by
    rw [← boundary_add_drop cps k]
    exact Nat.le_add_right _ _
  rcases utf8Insert_spec h.toHolds d hindex with ⟨heq, hzero⟩ | ⟨hgrow, -⟩ |
    ⟨s', heq, -, hs', hcount⟩
  · -- the empty string is not inserted at all
    have hnil : ds = [] := by
      have hlen := length_le_encodeAll hd.scalars
      rw [hd.bytes, ← hd.validLen_eq, hzero] at hlen
      exact List.eq_nil_of_length_eq_zero (Nat.le_zero.mp hlen)
    refine ⟨s, heq, ?_⟩
    rw [hnil, List.append_nil, List.take_append_drop]
    exact h
  · rw [hd.validLen_eq, ← h.length] at hgrow
    exact absurd hgrow halloc
  · have hscalars := ((h.scalars.take k).append hd.scalars).append (h.scalars.drop k)
    refine ⟨s', heq, hs'.represents hscalars ?_ hcount ?_⟩
    · rw [hd.take_validLen, encodeAll_take, encodeAll_drop, encodeAll_append, encodeAll_append]
    · rw [h.counted, hd.leads_eq]
      simp only [List.length_append, List.length_take, List.length_drop]
      omega

/-- The call reports whether there was anything to remove. -/
theorem remove_represents (h : Represents s cps) (hk : k ≤ cps.length) (n : Nat) :
    ∃ s', utf8Remove s (boundary cps k) n = some (s', decide (k < cps.length ∧ n ≠ 0)) ∧
      Represents s' (cps.take k ++ cps.drop (k + n)) := by
  by_cases hgo : k < cps.length ∧ n ≠ 0
  · obtain ⟨s', heq, hs', hcount⟩ := utf8Remove_spec h.toHolds
      ((boundary_lt_iff h.scalars hk).mpr hgo.1) hgo.2
    have hdrop := h.scalars.drop k
    have hle := length_le_encodeAll h.scalars
    have hlt := h.length_lt
    rw [encodeAll_drop, pieceBytes_encodeAll hdrop, boundary_add, encodeAll_take,
      encodeAll_drop, ← encodeAll_append] at hs'
    rw [encodeAll_drop, pieces_encodeAll hdrop, List.length_map, List.length_take,
      List.length_drop, h.counted, sizeSub_of_le (by omega) (by omega)] at hcount
    rw [decide_eq_true hgo]
    refine ⟨s', heq, hs', (h.scalars.take k).append (h.scalars.drop (k + n)), ?_⟩
    rw [hcount, List.length_append, List.length_take, List.length_drop]
    omega
  · have hlist : cps.take k ++ cps.drop (k + n) = cps := by
      by_cases hn : n = 0
      · rw [hn, Nat.add_zero, List.take_append_drop]
      · have hend : cps.length ≤ k := by
          by_contra hlt
          exact hgo ⟨Nat.lt_of_not_le hlt, hn⟩
        rw [List.take_of_length_le hend, List.drop_eq_nil_of_le (by omega), List.append_nil]
    rw [hlist, decide_eq_false hgo]
    refine ⟨s, if_pos ?_, h⟩
    rw [h.length]
    by_contra hnot
    rw [not_or] at hnot
    exact hgo ⟨(boundary_lt_iff h.scalars hk).mp (Nat.lt_of_not_le hnot.1), hnot.2⟩

/-- The occurrence at the character `i` is replaced. -/
theorem replaceAt_represents {oldStr newStr : CString} (h : Represents s cps)
    (hold : Encodes oldStr old) (hnew : Encodes newStr new) {i : Nat} (hi : i ≤ cps.length)
    (hocc : old <+: cps.drop i) :
    (utf8StringGrow s (s.length - oldStr.len + newStr.len) = none ∧
      replaceAt s ⟨validLen oldStr, validLen newStr, leads oldStr.bytes, leads newStr.bytes⟩
        newStr.mem (boundary cps i) = some none) ∨
    ∃ s', replaceAt s ⟨validLen oldStr, validLen newStr, leads oldStr.bytes, leads newStr.bytes⟩
        newStr.mem (boundary cps i) = some (some s') ∧
      Represents s' (cps.take i ++ new ++ cps.drop (i + old.length)) := by
  have hend : boundary cps i + validLen oldStr = boundary cps (i + old.length) := by
    rw [hold.validLen_eq, ← hold.bytes, ← boundary_add, ← List.prefix_iff_eq_take.mp hocc]
  have hoff : boundary cps i + validLen oldStr ≤ (encodeAll cps).length := by
    rw [hend, ← boundary_add_drop cps (i + old.length)]
    exact Nat.le_add_right _ _
  have hlen := hocc.length_le
  have hle := length_le_encodeAll h.scalars
  have hlt := h.length_lt
  rw [List.length_drop] at hlen
  rcases replaceAt_spec h.toHolds oldStr newStr _ hoff with
    ⟨hgrow, -, heq⟩ | ⟨s', heq, hs', hcount⟩
  · rw [hold.validLen_eq, hnew.validLen_eq, ← h.length] at hgrow
    exact .inl ⟨hgrow, heq⟩
  · have hscalars := ((h.scalars.take i).append hnew.scalars).append
      (h.scalars.drop (i + old.length))
    refine .inr ⟨s', heq, hs'.represents hscalars ?_ hcount ?_⟩
    · rw [hend, hnew.take_validLen, encodeAll_take, encodeAll_drop, encodeAll_append,
        encodeAll_append]
    · rw [hold.leads_eq, hnew.leads_eq, h.counted, sizeSub_of_le (by omega) (by omega)]
      simp only [List.length_append, List.length_take, List.length_drop]
      omega

/-- The call reports whether there was an occurrence. -/
theorem replace_represents {oldStr newStr : CString} (h : Represents s cps)
    (hold : Encodes oldStr old) (hnew : Encodes newStr new) (hne : old ≠ [])
    (halloc : findSub old cps ≠ none →
      utf8StringGrow s (s.length - oldStr.len + newStr.len) ≠ none) :
    ∃ s', utf8Replace s oldStr.mem newStr.mem = some (s', (findSub old cps).isSome) ∧
      Represents s' (replaceFirst old new cps) := by
  have hfind := strstr_eq h.toHolds oldStr (Nat.zero_le _)
  rw [List.drop_zero, List.drop_zero, ← hold.bytes, findSub_encodeAll hold.scalars hne h.scalars]
    at hfind
  rw [utf8Replace, hfind, Option.bind_some, replaceFirst]
  cases hf : findSub old cps with
  | none => exact ⟨s, rfl, h⟩
  | some i =>
    obtain ⟨hi, hocc, -⟩ := findSub_eq_some_iff.mp hf
    simp only [Option.map_some, measure_eq, Option.bind_some]
    rcases replaceAt_represents h hold hnew hi hocc with ⟨hgrow, -⟩ | ⟨s', heq, hs'⟩
    · exact absurd hgrow (halloc (by rw [hf]; exact Option.some_ne_none i))
    · rw [heq]
      exact ⟨s', rfl, hs'⟩

theorem concat_represents {s₂ : Utf8String} {cps₂ : List Nat} (h : Represents s cps)
    (h₂ : Represents s₂ cps₂) (halloc : s.length + s₂.length ≤ maxCapacity) :
    ∃ s', utf8Concat s s₂ = some (some s') ∧ Represents s' (cps ++ cps₂) := by
  rcases utf8Concat_spec h.toHolds h₂.toHolds with ⟨hmax, -⟩ | ⟨s', heq, hs', hcount⟩
  · rw [h.length, h₂.length] at halloc
    exact absurd hmax (Nat.not_lt.mpr halloc)
  · refine ⟨s', heq, hs'.represents (h.scalars.append h₂.scalars) ?_ hcount ?_⟩
    · rw [encodeAll_append]
    · rw [h.counted, h₂.counted, List.length_append]

/-- On valid data the operations on string objects refine those on lists of scalar values, as long
as the buffers can be allocated; each result is a valid string again. -/
theorem utf8String_refines (s : Utf8String) :
    (ValidString s ↔ ∃ cps, Represents s cps) ∧
    ∀ cps, Represents s cps →
      (∀ d ds, Encodes d ds → utf8StringGrow s (s.length + d.len) ≠ none →
        ∃ s', utf8Append s d.mem = some (s', true) ∧ Represents s' (cps ++ ds)) ∧
      (∀ k d ds, k ≤ cps.length → Encodes d ds →
        utf8StringGrow s (s.length + d.len) ≠ none →
        ∃ s', utf8Insert s (boundary cps k) d.mem = some (s', true) ∧
          Represents s' (cps.take k ++ ds ++ cps.drop k)) ∧
      (∀ k n, k ≤ cps.length →
        ∃ s', utf8Remove s (boundary cps k) n = some (s', decide (k < cps.length ∧ n ≠ 0)) ∧
          Represents s' (cps.take k ++ cps.drop (k + n))) ∧
      (∀ oldStr newStr old new, Encodes oldStr old → Encodes newStr new → old ≠ [] →
        (findSub old cps ≠ none →
          utf8StringGrow s (s.length - oldStr.len + newStr.len) ≠ none) →
        ∃ s', utf8Replace s oldStr.mem newStr.mem = some (s', (findSub old cps).isSome) ∧
          Represents s' (replaceFirst old new cps)) ∧
      ∀ s₂ cps₂, Represents s₂ cps₂ → s.length + s₂.length ≤ maxCapacity →
        ∃ s', utf8Concat s s₂ = some (some s') ∧ Represents s' (cps ++ cps₂) := by
  refine ⟨validString_iff, fun cps h => ⟨?_, ?_, ?_, ?_, ?_⟩⟩
  · intro d ds hd halloc
    exact append_represents h hd halloc
  · intro k d ds hk hd halloc
    exact insert_represents h hd hk halloc
  · intro k n hk
    exact remove_represents h hk n
  · intro oldStr newStr old new hold hnew hne halloc
    exact replace_represents h hold hnew hne halloc
  · intro s₂ cps₂ h₂ halloc
    exact concat_represents h h₂ halloc

/-- The letter is replaced, not the bytes of the character in front of it. -/
theorem utf8String_refines_accent : ∃ s s', Represents s [0xE9, 0x61] ∧
    utf8Replace s [0x61, 0] [0xC3, 0xA9, 0] = some (s', true) ∧ Represents s' [0xE9, 0xE9] := by
  have hs : Represents ⟨[0xC3, 0xA9, 0x61, 0], 3, 2, 3⟩ [0xE9, 0x61] := by
    refine ⟨⟨⟨[], by decide⟩, by decide, by decide, by decide, by decide⟩, ?_, rfl⟩
    simp [Scalars, NonzeroScalar, unicodeMaxCodepoint]
  have hletter : Encodes ⟨[0x61], by decide⟩ [0x61] := by
    refine ⟨?_, by decide⟩
    simp [Scalars, NonzeroScalar, unicodeMaxCodepoint]
  have haccent : Encodes accentText [0xE9] := by
    refine ⟨?_, by decide⟩
    simp [Scalars, NonzeroScalar, unicodeMaxCodepoint]
  obtain ⟨s', heq, hs'⟩ := ((utf8String_refines _).2 _ hs).2.2.2.1 _ _ _ _ hletter haccent
    (by decide) (fun _ => by decide)
  exact ⟨_, s', hs, heq, hs'⟩

end Solidc.Unicode
