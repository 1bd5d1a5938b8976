import Solidc.Unicode.Strings

/-! # What a string object holds

`Holds s text`: the buffer of `s` holds the bytes `text` and a terminator, and `length` and
`capacity` fit them. Each operation is specified by what it does to the text and to `count`,
for arbitrary bytes as arguments.

* `validByteCountLoop_le`, `utf8CountCodepoints_eq` — the two counters on arbitrary strings;
* `splice` — the move of the tail that all operations make;
* `utf8New_spec`, `utf8Append_spec`, `utf8Insert_spec`, `utf8Remove_spec`, `replaceAt_spec`,
  `utf8Concat_spec` — one lemma for each operation; `pieces` is what `utf8_remove` passes over.
-/

namespace Solidc.Unicode

open CLib

structure Holds (s : Utf8String) (text : List UInt8) : Prop where
  data : ∃ rest, s.data = text ++ 0 :: rest
  nulFree : 0 ∉ text
  length : s.length = text.length
  size : s.data.length ≤ s.capacity + 1
  fits : s.capacity ≤ maxCapacity

/-- The bytes that are not continuation bytes. -/
def leads (l : List UInt8) : Nat := l.countP fun b => !isCont b

/-- `utf8_valid_byte_count` of an argument. -/
def validLen (d : CString) : Nat := (utf8ValidByteCount d.mem).getD 0

variable {s s' : Utf8String} {text t rest : List UInt8} {d : CString} {size off k n : Nat}
  {mem : CMem} {bytes : List UInt8}

/-! ## The counters -/

theorem leads_append (l l' : List UInt8) : leads (l ++ l') = leads l + leads l' :=
  List.countP_append

theorem leads_le_length (l : List UInt8) : leads l ≤ l.length := List.countP_le_length

theorem leads_take_add_drop (l : List UInt8) (k : Nat) :
    leads (l.take k) + leads (l.drop k) = leads l := by
  rw [← leads_append, List.take_append_drop]

theorem countCodepointsLoop_eq {fuel : Nat} (count : Nat) (h0 : 0 ∉ t) (hf : t.length < fuel) :
    countCodepointsLoop fuel (t ++ 0 :: rest) count = some (count + leads t) := by
  induction t generalizing fuel count with
  | nil =>
    obtain ⟨fuel, rfl⟩ := Nat.exists_eq_succ_of_ne_zero (Nat.ne_of_gt hf)
    simp [countCodepointsLoop, leads]
  | cons b t ih =>
    obtain ⟨fuel, rfl⟩ := Nat.exists_eq_succ_of_ne_zero (Nat.ne_of_gt (Nat.zero_lt_of_lt hf))
    have hb : b ≠ 0 := fun h => h0 (h ▸ List.mem_cons_self)
    have hnul : 0 ∉ t := fun h => h0 (List.mem_cons_of_mem b h)
    have hrest := fun count => ih count hnul (Nat.lt_of_succ_lt_succ hf)
    simp only [List.cons_append, countCodepointsLoop, rd_cons_zero, Option.bind_some, hb, if_false,
      List.drop_succ_cons, List.drop_zero, hrest]
    cases hc : isCont b with
    | false =>
      simp [leads, hc]
      omega
    | true => simp [leads, hc]

/-- The number of codepoints is that of the bytes that are not continuation bytes. -/
theorem utf8CountCodepoints_eq (h0 : 0 ∉ t) :
    utf8CountCodepoints (t ++ 0 :: rest) = some (leads t) := by
  rw [utf8CountCodepoints, countCodepointsLoop_eq 0 h0 (by simp), Nat.zero_add]

/-- Behind a byte of a string there is another one, or the terminator. -/
theorem rd_behind (b : UInt8) (t : List UInt8) (hk : k ≤ t.length) :
    ∃ c, CMem.rd (b :: (t ++ [0])) (k + 1) = some c ∧ (c ≠ 0 → k + 1 ≤ t.length) := by
  rw [rd_cons_succ, CMem.rd]
  rcases Nat.lt_or_eq_of_le hk with hlt | rfl
  · exact ⟨t[k], by rw [List.getElem?_append_left hlt, List.getElem?_eq_getElem hlt], fun _ => hlt⟩
  · exact ⟨0, List.getElem?_concat_length, fun h => absurd rfl h⟩

/-- `utf8_valid_byte_count` returns on every string, with no more than its bytes. -/
theorem validByteCountLoop_le (count : Nat) {fuel : Nat} (h0 : 0 ∉ t) (hf : t.length < fuel) :
    ∃ n, validByteCountLoop fuel (t ++ [0]) count = some n ∧ n ≤ count + t.length := by
  induction fuel generalizing t count with
  | zero => omega
  | succ fuel ih =>
    cases t with
    | nil => exact ⟨count, by simp [validByteCountLoop], by simp⟩
    | cons b t =>
      have hb : b ≠ 0 := fun h => h0 (h ▸ List.mem_cons_self)
      simp only [List.length_cons] at hf
      -- a turn of the loop passes over some bytes and counts no more than these
      have hskip : ∀ j n, j ≤ t.length → n ≤ j + 1 → ∃ m,
          validByteCountLoop fuel ((b :: t ++ [0]).drop (j + 1)) (count + n) = some m ∧
            m ≤ count + (b :: t).length := by
        intro j n hj hn
        have hdrop : (b :: t ++ [0]).drop (j + 1) = t.drop j ++ [0] := by
          rw [List.cons_append, List.drop_succ_cons, List.drop_append_of_le_length hj]
        have h0' : 0 ∉ t.drop j := fun h => h0 (List.mem_cons_of_mem b (List.drop_subset j t h))
        obtain ⟨m, hm, hle⟩ := ih (count + n) h0' (by rw [List.length_drop]; omega)
        refine ⟨m, hdrop ▸ hm, ?_⟩
        rw [List.length_drop] at hle
        simp only [List.length_cons]
        omega
      have hnone := hskip 0 0 (Nat.zero_le _) (Nat.zero_le _)
      have hone := hskip 0 1 (Nat.zero_le _) (Nat.le_refl _)
      obtain ⟨b1, hb1, h1⟩ := rd_behind b t (Nat.zero_le _)
      unfold validByteCountLoop
      rw [List.cons_append, rd_cons_zero, Option.bind_some, if_neg hb]
      by_cases hlead1 : b.toNat &&& 0x80 = 0
      · rw [if_pos hlead1]
        exact hone
      simp only [if_neg hlead1, hb1, Option.bind_some]
      by_cases hz1 : b1 = 0
      · simp only [if_pos hz1, ite_self]
        exact hnone
      obtain ⟨b2, hb2, h2⟩ := rd_behind b t (h1 hz1)
      simp only [if_neg hz1, hb2, Option.bind_some]
      by_cases hlead2 : b.toNat &&& 0xE0 = 0xC0
      · rw [if_pos hlead2]
        split
        · exact hskip 1 2 (h1 hz1) (Nat.le_refl _)
        · exact hnone
      rw [if_neg hlead2]
      by_cases hz2 : b2 = 0
      · simp only [if_pos hz2, ite_self]
        exact hnone
      obtain ⟨b3, hb3, h3⟩ := rd_behind b t (h2 hz2)
      simp only [if_neg hz2, hb3, Option.bind_some]
      by_cases hlead3 : b.toNat &&& 0xF0 = 0xE0
      · rw [if_pos hlead3]
        split
        · exact hskip 2 3 (h2 hz2) (Nat.le_refl _)
        · exact hnone
      rw [if_neg hlead3]
      by_cases hz3 : b3 = 0
      · simp only [if_pos hz3, ite_self]
        exact hnone
      simp only [if_neg hz3]
      split
      · split
        · exact hskip 3 4 (h3 hz3) (Nat.le_refl _)
        · exact hnone
      · exact hnone

theorem utf8ValidByteCount_eq (d : CString) :
    utf8ValidByteCount d.mem = some (validLen d) ∧ validLen d ≤ d.bytes.length := by
  have hfuel : d.bytes.length < d.mem.length := by simp [CString.mem]
  obtain ⟨n, hn, hle⟩ := validByteCountLoop_le 0 d.nulFree hfuel
  have hn' : utf8ValidByteCount d.mem = some n := hn
  rw [validLen, hn']
  exact ⟨rfl, by simpa using hle⟩

theorem utf8CountCodepoints_mem (d : CString) : utf8CountCodepoints d.mem = some (leads d.bytes) :=
  utf8CountCodepoints_eq d.nulFree

/-! ## Buffers -/

theorem poke_eq (h : off + bytes.length ≤ size) (hoff : off ≤ mem.length) :
    poke size mem off bytes = some (mem.take off ++ (bytes ++ mem.drop (off + bytes.length))) := by
  rw [poke, if_pos h, List.take_append_of_le_length hoff]

/-- A write at the end of a known part of the buffer. -/
theorem poke_append (h : t.length + bytes.length ≤ size) :
    poke size (t ++ rest) t.length bytes = some (t ++ (bytes ++ rest.drop bytes.length)) := by
  rw [poke_eq h (by simp), List.take_left, ← List.drop_drop, List.drop_left]

theorem peek_eq (h : off + n ≤ mem.length) : peek mem off n = some ((mem.drop off).take n) :=
  if_pos h

/-- The valid bytes of an argument. -/
theorem peek_mem (d : CString) : peek d.mem 0 (validLen d) = some (d.bytes.take (validLen d)) := by
  have hle := (utf8ValidByteCount_eq d).2
  rw [peek_eq (by simp [CString.mem]; omega), List.drop_zero, CString.mem,
    List.take_append_of_le_length hle]

theorem length_take_validLen (d : CString) : (d.bytes.take (validLen d)).length = validLen d := by
  rw [List.length_take]
  exact Nat.min_eq_left (utf8ValidByteCount_eq d).2

/-- The tail behind `off + k`, with its terminator, moves to `off + n`; the `n` bytes from `off`
on are then free to be written. -/
theorem splice (n : Nat) (hoff : off + k ≤ t.length)
    (hsize : off + n + (t.length - off - k + 1) ≤ size)
    (hlen : (t ++ 0 :: rest).length ≤ size) :
    ∃ buf more,
      memmove size (t ++ 0 :: rest) (off + n) (off + k) (t.length - off - k + 1) = some buf ∧
      buf.length ≤ size ∧
      buf.take off = t.take off ∧ off + n ≤ buf.length ∧
      buf.drop (off + n) = t.drop (off + k) ++ 0 :: more := by
  have htail : ((t ++ 0 :: rest).drop (off + k)).take (t.length - off - k + 1) =
      t.drop (off + k) ++ [0] := by
    rw [List.drop_append_of_le_length hoff]
    have hl : t.length - off - k + 1 = (t.drop (off + k) ++ [0]).length := by
      simp
      omega
    rw [hl, List.append_cons (t.drop (off + k)) 0 rest, List.take_left]
  have htailLen : (t.drop (off + k) ++ [0]).length = t.length - off - k + 1 := by
    simp
    omega
  -- the part in front of the tail, with a gap if the buffer is not written that far
  have hfront : ((t ++ 0 :: rest) ++
      List.replicate (off + n - (t ++ 0 :: rest).length) junk).length ≥ off + n := by
    rw [List.length_append, List.length_replicate]
    omega
  have hfrontLen : (((t ++ 0 :: rest) ++
      List.replicate (off + n - (t ++ 0 :: rest).length) junk).take (off + n)).length =
        off + n := by
    rw [List.length_take]
    omega
  have hmove : memmove size (t ++ 0 :: rest) (off + n) (off + k) (t.length - off - k + 1) =
      some (((t ++ 0 :: rest) ++
        List.replicate (off + n - (t ++ 0 :: rest).length) junk).take (off + n) ++
        ((t.drop (off + k) ++ [0]) ++
          (t ++ 0 :: rest).drop (off + n + (t.length - off - k + 1)))) := by
    rw [memmove, peek_eq (by simp; omega), htail, Option.bind_some, poke, htailLen, if_pos hsize]
  refine ⟨_, (t ++ 0 :: rest).drop (off + n + (t.length - off - k + 1)), hmove, ?_, ?_, ?_, ?_⟩
  · rw [List.length_append, hfrontLen, List.length_append, htailLen, List.length_drop]
    omega
  · rw [List.take_append_of_le_length (by omega), List.take_take, Nat.min_eq_left (by omega),
      List.append_assoc, List.take_append_of_le_length (by omega)]
  · rw [List.length_append, hfrontLen]
    omega
  · rw [List.drop_append_of_le_length (by omega), List.drop_eq_nil_of_le (Nat.le_of_eq hfrontLen),
      List.nil_append, List.append_assoc, List.singleton_append]

/-- The free bytes are written. -/
theorem splice_poke {buf more : CMem} (hb : bytes.length = n) (hbuf : buf.length ≤ size)
    (htake : buf.take off = t.take off) (hn : off + n ≤ buf.length)
    (hdrop : buf.drop (off + n) = t.drop (off + k) ++ 0 :: more) :
    poke size buf off bytes = some ((t.take off ++ bytes ++ t.drop (off + k)) ++ 0 :: more) := by
  rw [poke_eq (by omega) (by omega), htake, hb, hdrop]
  simp only [List.append_assoc]

theorem cstr_append (h0 : 0 ∉ t) : cstr (t ++ 0 :: rest) = some t := by
  rw [cstr, if_pos (by simp), cstrOf_append h0]

/-! ## The operations -/

theorem Holds.cstr_eq (h : Holds s text) : cstr s.data = some text := by
  obtain ⟨rest, hdata⟩ := h.data
  rw [hdata, cstr_append h.nulFree]

theorem Holds.cstrOf_eq (h : Holds s text) : cstrOf s.data = text := by
  have hc := h.cstr_eq
  unfold cstr at hc
  split at hc
  · exact Option.some.inj hc
  · cases hc

theorem Holds.length_le (h : Holds s text) : s.length ≤ s.capacity := by
  obtain ⟨rest, hdata⟩ := h.data
  have hsize := h.size
  rw [hdata] at hsize
  simp only [List.length_append, List.length_cons] at hsize
  rw [h.length]
  omega

theorem Holds.length_lt (h : Holds s text) : text.length < 2 ^ 64 := by
  have hle := h.length_le
  have hfits := h.fits
  rw [h.length] at hle
  unfold maxCapacity at hfits
  omega

theorem Holds.count (h : Holds s text) : utf8CountCodepoints s.data = some (leads text) := by
  obtain ⟨rest, hdata⟩ := h.data
  rw [hdata]
  exact utf8CountCodepoints_eq h.nulFree

theorem utf8StringGrow_some {min : Nat} (h : utf8StringGrow s min = some s') :
    min ≤ s'.capacity ∧ s.capacity ≤ s'.capacity ∧
      (s.capacity ≤ maxCapacity → s'.capacity ≤ maxCapacity) ∧
      s'.data = s.data ∧ s'.length = s.length ∧ s'.count = s.count := by
  unfold utf8StringGrow at h
  split at h
  · next hge =>
    cases h
    exact ⟨hge, Nat.le_refl _, id, rfl, rfl, rfl⟩
  · next hlt =>
    simp only at h
    generalize hcap : (if s.capacity * 2 % 2 ^ 64 < min then min else s.capacity * 2 % 2 ^ 64) =
      newCapacity at h
    have hmin : min ≤ newCapacity := by
      rw [← hcap]
      split <;> omega
    split at h
    · cases h
    · next hmax =>
      cases h
      exact ⟨hmin, by simp only; omega, fun _ => Nat.le_of_not_lt hmax, rfl, rfl, rfl⟩

/-- A grown string holds the same. -/
theorem Holds.grow (h : Holds s text) {min : Nat} (hg : utf8StringGrow s min = some s') :
    Holds s' text ∧ min ≤ s'.capacity ∧ s'.count = s.count := by
  obtain ⟨hmin, hcap, hmax, hdata, hlength, hcount⟩ := utf8StringGrow_some hg
  refine ⟨⟨hdata ▸ h.data, h.nulFree, hlength.trans h.length, ?_, hmax h.fits⟩, hmin, hcount⟩
  have hsize := h.size
  rw [hdata]
  omega

theorem not_mem_take {l : List UInt8} (h : 0 ∉ l) (k : Nat) : 0 ∉ l.take k :=
  fun hm => h (List.take_subset k l hm)

theorem not_mem_drop {l : List UInt8} (h : 0 ∉ l) (k : Nat) : 0 ∉ l.drop k :=
  fun hm => h (List.drop_subset k l hm)

/-- `utf8_append` adds the first valid-byte-count bytes of its argument. -/
theorem utf8Append_spec (h : Holds s text) (d : CString) :
    (utf8StringGrow s (text.length + validLen d) = none ∧ utf8Append s d.mem = some (s, false)) ∨
      ∃ s', utf8Append s d.mem = some (s', true) ∧
        Holds s' (text ++ d.bytes.take (validLen d)) ∧
        s'.count = (s.count + leads d.bytes) % 2 ^ 64 := by
  have hlen := length_take_validLen d
  simp only [utf8Append, (utf8ValidByteCount_eq d).1, utf8CountCodepoints_mem, Option.bind_some,
    h.length]
  cases hg : utf8StringGrow s (text.length + validLen d) with
  | none => exact .inl ⟨rfl, rfl⟩
  | some g =>
    obtain ⟨hgrown, hcap, hcount⟩ := h.grow hg
    obtain ⟨rest, hdata⟩ := hgrown.data
    have hsize := hgrown.size
    rw [hdata] at hsize
    simp only [List.length_append, List.length_cons] at hsize
    simp only [peek_mem, Option.bind_some, hgrown.length, hdata]
    rw [poke_append (by omega), Option.bind_some, ← List.append_assoc, hlen]
    have hend : text.length + validLen d = (text ++ d.bytes.take (validLen d)).length := by
      rw [List.length_append, hlen]
    rw [hend, poke_append (by simp [hlen]; omega), Option.map_some]
    refine .inr ⟨_, rfl, ⟨⟨_, rfl⟩, ?_, rfl, ?_, hgrown.fits⟩, by rw [hcount]⟩
    · rw [List.mem_append, not_or]
      exact ⟨h.nulFree, not_mem_take d.nulFree _⟩
    · simp only [List.length_append, List.length_cons, List.length_drop, List.length_nil, hlen]
      omega

/-- `utf8_insert` puts these bytes at the index. -/
theorem utf8Insert_spec (h : Holds s text) (d : CString) {index : Nat} (hi : index ≤ text.length) :
    (utf8Insert s index d.mem = some (s, true) ∧ validLen d = 0) ∨
      (utf8StringGrow s (text.length + validLen d) = none ∧
        utf8Insert s index d.mem = some (s, false)) ∨
      ∃ s', utf8Insert s index d.mem = some (s', true) ∧ validLen d ≠ 0 ∧
        Holds s' (text.take index ++ d.bytes.take (validLen d) ++ text.drop index) ∧
        s'.count = (s.count + leads d.bytes) % 2 ^ 64 := by
  have hlen := length_take_validLen d
  have hnot : ¬ index > s.length := by
    rw [h.length]
    omega
  simp only [utf8Insert, hnot, if_false, (utf8ValidByteCount_eq d).1, utf8CountCodepoints_mem,
    Option.bind_some]
  split
  · next hzero => exact .inl ⟨rfl, hzero⟩
  · next hpos =>
    rw [h.length]
    cases hg : utf8StringGrow s (text.length + validLen d) with
    | none => exact .inr (.inl ⟨rfl, rfl⟩)
    | some g =>
      obtain ⟨hgrown, hcap, hcount⟩ := h.grow hg
      obtain ⟨rest, hdata⟩ := hgrown.data
      have hsize := hgrown.size
      rw [hdata] at hsize
      have hwithin : index + 0 ≤ text.length := hi
      obtain ⟨buf, more, hmove, hbuf, htake, hn, hdrop⟩ :=
        splice (validLen d) hwithin (by omega) hsize
      simp only [Nat.add_zero, Nat.sub_zero] at hmove hdrop
      simp only [hgrown.length, hdata, hmove, Option.bind_some, peek_mem]
      rw [splice_poke (k := 0) hlen hbuf htake hn hdrop, Option.map_some, Nat.add_zero]
      refine .inr (.inr ⟨_, rfl, hpos, ⟨⟨_, rfl⟩, ?_, ?_, ?_, hgrown.fits⟩, by rw [hcount]⟩)
      · simp only [List.mem_append, not_or]
        exact ⟨⟨not_mem_take h.nulFree _, not_mem_take d.nulFree _⟩, not_mem_drop h.nulFree _⟩
      · simp only [List.length_append, List.length_take, List.length_drop, hlen]
        omega
      · have hsum := congrArg List.length hdrop
        simp only [List.length_append, List.length_cons, List.length_take, List.length_drop, hlen]
          at hsum ⊢
        omega

/-- `utf8_new` holds the first valid-byte-count bytes of its argument. -/
theorem utf8New_spec (d : CString) :
    (maxCapacity < validLen d ∧ utf8New d.mem = some none) ∨
      ∃ s, utf8New d.mem = some (some s) ∧ Holds s (d.bytes.take (validLen d)) ∧
        s.count = leads (d.bytes.take (validLen d)) := by
  have hlen := length_take_validLen d
  have hnul := not_mem_take d.nulFree (validLen d)
  simp only [utf8New, (utf8ValidByteCount_eq d).1, Option.bind_some, utf8StringAlloc]
  split
  · next halloc => exact .inl ⟨by simpa using halloc, rfl⟩
  · next s halloc =>
    split at halloc
    · cases halloc
    · next hmax =>
      cases halloc
      have hfirst : poke (validLen d + 1) [0] 0 (d.bytes.take (validLen d)) =
          some (d.bytes.take (validLen d) ++ [0].drop (validLen d)) := by
        rw [poke_eq (by omega) (Nat.zero_le _), hlen]
        simp
      have hfits : (d.bytes.take (validLen d)).length + [(0 : UInt8)].length ≤ validLen d + 1 := by
        simp [hlen]
      have hsecond : poke (validLen d + 1)
          (d.bytes.take (validLen d) ++ [0].drop (validLen d))
            (d.bytes.take (validLen d)).length [0] =
          some (d.bytes.take (validLen d) ++ 0 :: ([0].drop (validLen d)).drop 1) :=
        poke_append hfits
      rw [hlen] at hsecond
      simp only [peek_mem, Option.bind_some, hfirst, hsecond, utf8CountCodepoints_eq hnul,
        Option.map_some]
      refine .inr ⟨_, rfl, ⟨⟨_, rfl⟩, hnul, hlen.symm, ?_, Nat.le_of_not_lt hmax⟩, rfl⟩
      simp only [List.length_append, List.length_cons, List.length_drop, List.length_nil, hlen]
      omega

/-! ### Removing -/

/-- The table of `utf8_char_length`. -/
def charLen (byte : UInt8) : Nat :=
  if byte.toNat ≤ 0x7F then 1
  else if byte.toNat ≤ 0xDF then 2
  else if byte.toNat ≤ 0xEF then 3
  else if byte.toNat ≤ 0xF7 then 4
  else 0

/-- The first `n` pieces of a text that is cut by the table alone. -/
def pieces : Nat → List UInt8 → List (List UInt8)
  | 0, _ => []
  | _ + 1, [] => []
  | n + 1, b :: l =>
    if charLen b = 0 then []
    else (b :: l).take (charLen b) :: pieces n ((b :: l).drop (charLen b))

/-- The bytes of these pieces. -/
def pieceBytes (n : Nat) (l : List UInt8) : List UInt8 := (pieces n l).flatten

theorem pieces_nil (n : Nat) : pieces n [] = [] := by
  cases n <;> rfl

theorem pieceBytes_prefix (n : Nat) (l : List UInt8) : pieceBytes n l <+: l := by
  induction n, l using pieces.induct with
  | case1 => simp [pieceBytes, pieces]
  | case2 => simp [pieceBytes, pieces]
  | case3 n b l hzero => simp [pieceBytes, pieces, hzero]
  | case4 n b l hpos ih =>
    simp only [pieceBytes, pieces, hpos, if_false, List.flatten_cons] at ih ⊢
    conv_rhs => rw [← List.take_append_drop (charLen b) (b :: l)]
    exact (List.prefix_append_right_inj _).mpr ih

theorem utf8CharLength_cons (b : UInt8) (p : CMem) :
    utf8CharLength (b :: p) = some (charLen b) := by
  simp only [utf8CharLength, rd_cons_zero, Option.bind_some, charLen]
  split_ifs <;> rfl

/-- The loop of `utf8_remove` passes over these pieces; the last one may be cut short by the end
of the text. -/
theorem removeLoop_eq (h : Holds s text) (count fuel i removed : Nat)
    (hfuel : text.length - i < fuel) : ∃ stop, i ≤ stop ∧
      min stop text.length =
        min i text.length + (pieceBytes (count - removed) (text.drop i)).length ∧
      removeLoop s count fuel i removed =
        some (stop, removed + (pieces (count - removed) (text.drop i)).length) := by
  induction fuel generalizing i removed with
  | zero => omega
  | succ fuel ih =>
    rw [removeLoop, h.length]
    split
    · next hgo =>
      obtain ⟨b, l, hbl⟩ : ∃ b l, text.drop i = b :: l :=
        List.exists_cons_of_length_pos (by rw [List.length_drop]; omega)
      obtain ⟨rest, hdata⟩ := h.data
      have hread : utf8CharLength (s.data.drop i) = some (charLen b) := by
        rw [hdata, List.drop_append_of_le_length (by omega), hbl, List.cons_append,
          utf8CharLength_cons]
      -- one more piece may go: the loop runs while `removed < count`
      obtain ⟨m, hm⟩ : ∃ m, count - removed = m + 1 := ⟨count - removed - 1, by omega⟩
      rw [hread, Option.bind_some, hm, hbl]
      split
      · next hzero =>
        -- a lead byte of no sequence ends the loop, and the list of pieces with it
        refine ⟨i, Nat.le_refl i, ?_, ?_⟩
        · simp [pieceBytes, pieces, hzero]
        · simp [pieces, hzero]
      · next hpos =>
        obtain ⟨stop, hle, hmin, heq⟩ := ih (i + charLen b) (removed + 1) (by omega)
        have hm' : count - (removed + 1) = m := by omega
        rw [hm'] at hmin heq
        have hdrop : (b :: l).drop (charLen b) = text.drop (i + charLen b) := by
          rw [← hbl, List.drop_drop]
        have hlen := congrArg List.length hbl
        rw [List.length_drop] at hlen
        refine ⟨stop, by omega, ?_, ?_⟩
        · rw [hmin]
          simp only [pieceBytes, pieces, hpos, if_false, List.flatten_cons, List.length_append,
            List.length_take, hdrop]
          omega
        · rw [heq]
          simp only [pieces, hpos, if_false, List.length_cons, hdrop]
          congr 2
          omega
    · next hstop =>
      have hnone : pieces (count - removed) (text.drop i) = [] := by
        by_cases hi : i < text.length
        · have hzero : count - removed = 0 := by omega
          rw [hzero, pieces]
        · rw [List.drop_eq_nil_of_le (by omega), pieces_nil]
      exact ⟨i, Nat.le_refl i, by simp [pieceBytes, hnone], by simp [hnone]⟩

/-- `utf8_remove` takes out as many pieces as it is asked for, or as there are. -/
theorem utf8Remove_spec (h : Holds s text) {index count : Nat} (hi : index < text.length)
    (hcount : count ≠ 0) : ∃ s', utf8Remove s index count = some (s', true) ∧
      Holds s' (text.take index ++
        text.drop (index + (pieceBytes count (text.drop index)).length)) ∧
      s'.count = sizeSub s.count (pieces count (text.drop index)).length := by
  obtain ⟨stop, hle, hmin, heq⟩ := removeLoop_eq h count (text.length + 1) index 0 (by omega)
  generalize hk : (pieceBytes count (text.drop index)).length = k at *
  generalize (pieces count (text.drop index)).length = r at *
  have hnot : ¬ (index ≥ s.length ∨ count = 0) := by
    rw [h.length]
    omega
  rw [Nat.min_eq_left (Nat.le_of_lt hi)] at hmin
  rw [Nat.zero_add] at heq
  have hend : (if stop > text.length then text.length else stop) = index + k := by
    split <;> omega
  obtain ⟨rest, hdata⟩ := h.data
  have hsize := h.size
  rw [hdata] at hsize
  have hsize' := hsize
  simp only [List.length_append, List.length_cons] at hsize'
  have hwithin : index + k ≤ text.length := by omega
  obtain ⟨buf, more, hmove, hbuf, htake, hn, hdrop⟩ := splice 0 hwithin (by omega) hsize
  rw [utf8Remove, if_neg hnot, h.length, heq, Option.bind_some]
  simp only [hend, hdata]
  have hcut : text.length - (index + k) + 1 = text.length - index - k + 1 := by omega
  rw [hcut]
  simp only [Nat.add_zero] at hmove hdrop
  rw [hmove, Option.map_some]
  refine ⟨_, rfl, ⟨⟨more, ?_⟩, ?_, ?_, hbuf, h.fits⟩, rfl⟩
  · calc buf = buf.take index ++ buf.drop index := (List.take_append_drop index buf).symm
      _ = text.take index ++ text.drop (index + k) ++ 0 :: more := by
        rw [htake, hdrop, List.append_assoc]
  · rw [List.mem_append, not_or]
    exact ⟨not_mem_take h.nulFree _, not_mem_drop h.nulFree _⟩
  · simp only [List.length_append, List.length_take, List.length_drop]
    omega

/-! ### Replacing and concatenating -/

/-- A string is found in the text from an offset on. -/
theorem strstr_eq (h : Holds s text) (d : CString) {cursor : Nat} (hc : cursor ≤ text.length) :
    strstr (s.data.drop cursor) d.mem = some (findSub d.bytes (text.drop cursor)) := by
  obtain ⟨rest, hdata⟩ := h.data
  rw [hdata, List.drop_append_of_le_length hc, strstr, cstr_append (not_mem_drop h.nulFree _),
    CString.mem, cstr_append d.nulFree]
  rfl

theorem measure_eq (old new : CString) : measure old.mem new.mem =
    some ⟨validLen old, validLen new, leads old.bytes, leads new.bytes⟩ := by
  simp only [measure, (utf8ValidByteCount_eq _).1, utf8CountCodepoints_mem, Option.bind_some,
    Option.map_some]

/-- The valid-byte-count bytes from the offset on become those of the new string. -/
theorem replaceAt_spec (h : Holds s text) (old new : CString) (offset : Nat)
    (hoff : offset + validLen old ≤ text.length) :
    (utf8StringGrow s (text.length - validLen old + validLen new) = none ∧
      validLen old < validLen new ∧
      replaceAt s ⟨validLen old, validLen new, leads old.bytes, leads new.bytes⟩ new.mem offset =
        some none) ∨
    ∃ s', replaceAt s ⟨validLen old, validLen new, leads old.bytes, leads new.bytes⟩ new.mem
        offset = some (some s') ∧
      Holds s' (text.take offset ++ new.bytes.take (validLen new) ++
        text.drop (offset + validLen old)) ∧
      s'.count = (sizeSub s.count (leads old.bytes) + leads new.bytes) % 2 ^ 64 := by
  have hlen := length_take_validLen new
  simp only [replaceAt, h.length]
  split
  · next hg =>
    split at hg
    · next hlt => exact .inl ⟨hg, hlt, rfl⟩
    · cases hg
  · next g hg =>
    -- the buffer is grown for a longer replacement only
    have hgrown : Holds g text ∧ text.length - validLen old + validLen new ≤ g.capacity ∧
        g.count = s.count := by
      split at hg
      · exact h.grow hg
      · next hle =>
        cases hg
        have hcap := h.length_le
        rw [h.length] at hcap
        exact ⟨h, by omega, rfl⟩
    obtain ⟨hgrown, hcap, hcount⟩ := hgrown
    obtain ⟨rest, hdata⟩ := hgrown.data
    have hsize := hgrown.size
    rw [hdata] at hsize
    -- the tail is moved to its new place, and the replacement copied into the gap
    obtain ⟨buf, more, hmove, hbuf, htake, hn, hdrop⟩ :=
      splice (validLen new) hoff (by omega) hsize
    simp only [hgrown.length, hdata, hmove, Option.bind_some, peek_mem]
    rw [splice_poke hlen hbuf htake hn hdrop, Option.map_some]
    refine .inr ⟨_, rfl, ⟨⟨_, rfl⟩, ?_, ?_, ?_, hgrown.fits⟩, by rw [hcount]⟩
    · simp only [List.mem_append, not_or]
      exact ⟨⟨not_mem_take h.nulFree _, not_mem_take new.nulFree _⟩, not_mem_drop h.nulFree _⟩
    · simp only [List.length_append, List.length_take, List.length_drop, hlen]
      omega
    · have hsum := congrArg List.length hdrop
      simp only [List.length_append, List.length_cons, List.length_take, List.length_drop, hlen]
        at hsum ⊢
      omega

/-- `utf8_concat`. -/
theorem utf8Concat_spec {s₁ s₂ : Utf8String} {t₁ t₂ : List UInt8} (h₁ : Holds s₁ t₁)
    (h₂ : Holds s₂ t₂) :
    (maxCapacity < t₁.length + t₂.length ∧ utf8Concat s₁ s₂ = some none) ∨
      ∃ s', utf8Concat s₁ s₂ = some (some s') ∧ Holds s' (t₁ ++ t₂) ∧
        s'.count = (s₁.count + s₂.count) % 2 ^ 64 := by
  have hpeek : ∀ {s : Utf8String} {t}, Holds s t → peek s.data 0 t.length = some t := by
    intro s t h
    obtain ⟨rest, hdata⟩ := h.data
    rw [hdata, peek_eq (by simp), List.drop_zero, List.take_left]
  simp only [utf8Concat, utf8NewWithCapacity, utf8StringAlloc, h₁.length, h₂.length, hpeek h₁,
    hpeek h₂]
  by_cases hmax : t₁.length + t₂.length > maxCapacity
  · rw [if_pos hmax]
    exact .inl ⟨hmax, rfl⟩
  · have hfirst : poke (t₁.length + t₂.length + 1) [0] 0 t₁ = some (t₁ ++ [0].drop t₁.length) := by
      rw [poke_eq (by omega) (Nat.zero_le _)]
      simp
    have hsecond : poke (t₁.length + t₂.length + 1) (t₁ ++ [0].drop t₁.length) t₁.length t₂ =
        some (t₁ ++ t₂ ++ ([0].drop t₁.length).drop t₂.length) := by
      rw [poke_append (by omega), List.append_assoc]
    have hthird : poke (t₁.length + t₂.length + 1)
        (t₁ ++ t₂ ++ ([0].drop t₁.length).drop t₂.length) (t₁.length + t₂.length) [0] =
        some (t₁ ++ t₂ ++ 0 :: (([0].drop t₁.length).drop t₂.length).drop 1) := by
      rw [← List.length_append, poke_append (by simp)]
      rfl
    rw [if_neg hmax]
    simp only [Option.bind_some, hfirst, hsecond, hthird, Option.map_some]
    refine .inr ⟨_, rfl, ⟨⟨_, rfl⟩, ?_, by rw [List.length_append], ?_, Nat.le_of_not_lt hmax⟩, rfl⟩
    · rw [List.mem_append, not_or]
      exact ⟨h₁.nulFree, h₂.nulFree⟩
    · simp only [List.length_append, List.length_cons, List.length_drop, List.length_nil]
      omega

end Solidc.Unicode
