import Solidc.Streams.StringStream
import Mathlib.Order.Nat

/-! # A string stream as a text with a cursor

* `Cursor` — a text and a place in it, with what each call does to them;
* `Holds` — the block of a stream starts with the text and a NUL, and the cursor is inside;
* `Good.perform` — every call has its effect, unless a stream is copied onto itself;
* `streams_as_cursors` — so it has in every run.
-/

namespace Solidc.Streams

open CLib

/-! ## Texts with a cursor -/

/-- A text, and the place where the next read or write takes place. -/
structure Cursor where
  text : List UInt8
  pos : Nat

namespace Cursor

variable (c : Cursor)

/-- The next `n` bytes, or all that are left. -/
def ahead (n : Nat) : List UInt8 := (c.text.drop c.pos).take n

def advance (n : Nat) : Cursor := { c with pos := c.pos + n }

/-- The bytes are written over what stands at the cursor, and the cursor moves behind them. -/
def overwrite (bytes : List UInt8) : Cursor where
  text := c.text.take c.pos ++ (bytes ++ c.text.drop (c.pos + bytes.length))
  pos := c.pos + bytes.length

def append (bytes : List UInt8) : Cursor := { c with text := c.text ++ bytes }

/-- Where a seek leads, for one of the three origins. -/
def target (offset whence : Int) : Option Int :=
  if whence = 0 then some offset
  else if whence = 1 then some (c.pos + offset)
  else if whence = 2 then some (c.text.length + offset)
  else none

end Cursor

/-- The text of a stream and its cursor. -/
def StringStream.cursor (ss : StringStream) : Cursor := ⟨ss.data.take ss.size, ss.pos⟩

/-- The value with which a call reports that it failed. -/
def StreamOp.failure : StreamOp → Int
  | .copy .. => 2 ^ 64 - 1
  | _ => -1

/-- What a call does to the texts and cursors, and what it returns. A write fails only for want
of memory. -/
def Effect (op : StreamOp) (v v' : List Cursor) (r : StreamResult) : Prop :=
  match op with
  | .create _ memStream mem =>
    (memStream = false ∨ mem = none) ∧ r.code = -1 ∧ v' = v ∨
      r.code = v.length ∧ v' = v ++ [⟨[], 0⟩]
  | .read i n => ∃ c, v[i]? = some c ∧
      r = ⟨(c.ahead n).length, c.ahead n⟩ ∧ v' = v.set i (c.advance (c.ahead n).length)
  | .readChar i => ∃ c, v[i]? = some c ∧
      match c.text[c.pos]? with
      | none => r.code = eof ∧ v' = v
      | some b => r.code = b.toNat ∧ v' = v.set i (c.advance 1)
  | .write i bytes mem => ∃ c, v[i]? = some c ∧
      (mem = none ∧ r.code = -1 ∧ v' = v ∨ r.code = bytes.length ∧ v' = v.set i (c.overwrite bytes))
  | .writeString i str mem => ∃ c, v[i]? = some c ∧
      (mem = none ∧ r.code = -1 ∧ v' = v ∨
        r.code = toInt str.bytes.length ∧ v' = v.set i (c.append str.bytes))
  | .writeLen i bytes mem => ∃ c, v[i]? = some c ∧
      (mem = none ∧ r.code = -1 ∧ v' = v ∨
        r.code = toInt bytes.length ∧ v' = v.set i (c.append bytes))
  | .seek i offset whence => ∃ c, v[i]? = some c ∧
      ((∃ p : Nat, c.target offset whence = some p ∧ p ≤ c.text.length ∧ r.code = 0 ∧
          v' = v.set i { c with pos := p }) ∨
        (∀ p : Nat, c.target offset whence = some p → c.text.length < p) ∧ r.code = -1 ∧ v' = v)
  | .copy dst src mem => ∃ d s, v[dst]? = some d ∧ v[src]? = some s ∧
      (mem = none ∧ r.code = 2 ^ 64 - 1 ∧ v' = v ∨
        r.code = (s.text.drop s.pos).length ∧
          v' = (v.set dst (d.overwrite (s.text.drop s.pos))).set src (s.advance r.code.toNat))

/-! ## Conditions -/

/-- The cursor is inside the text, and the text is followed by a NUL inside the block. -/
structure StringStream.Inv (ss : StringStream) : Prop where
  pos_le : ss.pos ≤ ss.size
  size_lt : ss.size < ss.capacity
  length_data : ss.data.length = ss.capacity
  terminated : ss.data[ss.size]? = some 0

/-- The streams exist, `offset` is a `long`, and no text becomes longer than `2^62`. -/
def Bounded (streams : List StringStream) : StreamOp → Prop
  | .create .. => True
  | .read i _ | .readChar i => i < streams.length
  | .write i bytes _ => ∃ ss, streams[i]? = some ss ∧ ss.pos + bytes.length < 2 ^ 62
  | .writeString i str _ => ∃ ss, streams[i]? = some ss ∧ ss.size + str.bytes.length < 2 ^ 62
  | .writeLen i bytes _ => ∃ ss, streams[i]? = some ss ∧ ss.size + bytes.length < 2 ^ 62
  | .seek i offset _ => i < streams.length ∧ -2 ^ 63 ≤ offset ∧ offset < 2 ^ 63
  | .copy dst src _ => ∃ d s, streams[dst]? = some d ∧ streams[src]? = some s ∧
      d.pos + (s.size - s.pos) < 2 ^ 62

/-- A stream is not copied onto itself when it has bytes left, and the length of an appended text,
as an `int`, is not -1. -/
def Clean (streams : List StringStream) : StreamOp → Prop
  | .writeString _ str _ => str.bytes.length % 2 ^ 32 ≠ 2 ^ 32 - 1
  | .writeLen _ bytes _ => bytes.length % 2 ^ 32 ≠ 2 ^ 32 - 1
  | .copy dst src _ => dst = src → ∀ ss, streams[src]? = some ss → ss.size ≤ ss.pos
  | _ => True

/-! ## Streams that hold a text -/

/-- The stream holds the text of `c` and has its cursor. -/
structure Holds (ss : StringStream) (c : Cursor) : Prop where
  size : ss.size = c.text.length
  pos : ss.pos = c.pos
  pos_le : c.pos ≤ c.text.length
  data : ∃ rest, ss.data = c.text ++ 0 :: rest
  capacity : ss.data.length = ss.capacity
  small : c.text.length < 2 ^ 62

/-- The same for a text of any length that fits into an object: none is larger than
`PTRDIFF_MAX`. -/
structure Carries (ss : StringStream) (c : Cursor) : Prop where
  size : ss.size = c.text.length
  pos : ss.pos = c.pos
  pos_le : c.pos ≤ c.text.length
  data : ∃ rest, ss.data = c.text ++ 0 :: rest
  capacity : ss.data.length = ss.capacity
  fits : c.text.length < 2 ^ 63

variable {ss ss' : StringStream} {c : Cursor} {bytes : List UInt8} {mem : Alloc} {needed n : Nat}

theorem Holds.inv (h : Holds ss c) : ss.Inv := by
  obtain ⟨rest, hdata⟩ := h.data
  have hlen : ss.data.length = c.text.length + (rest.length + 1) := by rw [hdata]; simp
  refine ⟨?_, ?_, h.capacity, ?_⟩
  · rw [h.pos, h.size]
    exact h.pos_le
  · rw [h.size, ← h.capacity, hlen]
    omega
  · rw [hdata, h.size, List.getElem?_append_right (Nat.le_refl _), Nat.sub_self]
    rfl

theorem Holds.carries (h : Holds ss c) : Carries ss c :=
  ⟨h.size, h.pos, h.pos_le, h.data, h.capacity, h.small.trans (by decide)⟩

theorem Carries.holds (h : Carries ss c) (hsmall : c.text.length < 2 ^ 62) : Holds ss c :=
  ⟨h.size, h.pos, h.pos_le, h.data, h.capacity, hsmall⟩

theorem Holds.cursor_eq (h : Holds ss c) : ss.cursor = c := by
  obtain ⟨rest, hdata⟩ := h.data
  rw [StringStream.cursor, hdata, h.size, h.pos, List.take_left]

/-- Doubling gets to any size that is asked for. -/
theorem growLoop_spec {fuel newCap : Nat} (hpos : 0 < newCap) (hneeded : needed ≤ 2 ^ 63)
    (hfuel : needed ≤ newCap * 2 ^ fuel) :
    ∃ cap, growLoop fuel newCap needed = some cap ∧ needed ≤ cap := by
  induction fuel generalizing newCap with
  | zero => exact ⟨newCap, by rw [growLoop, if_neg (by omega)], by omega⟩
  | succ fuel ih =>
    rw [growLoop]
    by_cases hlt : newCap < needed
    · rw [if_pos hlt, toSize, Nat.mod_eq_of_lt (by omega)]
      refine ih (by omega) ?_
      rw [Nat.pow_succ] at hfuel
      rw [Nat.mul_assoc, Nat.mul_comm 2]
      exact hfuel
    · exact ⟨newCap, by rw [if_neg hlt], by omega⟩

/-- After `string_stream_ensure_capacity` there is room, or nothing has changed. -/
theorem Carries.ensureCapacity (h : Carries ss c) (hneeded : needed ≤ 2 ^ 63) (mem : Alloc) :
    (∃ ss', stringStreamEnsureCapacity ss needed mem = some (ss', true) ∧ Carries ss' c ∧
      needed ≤ ss'.capacity) ∨
    mem = none ∧ stringStreamEnsureCapacity ss needed mem = some (ss, false) := by
  rw [stringStreamEnsureCapacity]
  by_cases hfits : needed ≤ ss.capacity
  · exact .inl ⟨ss, if_pos hfits, h, hfits⟩
  · rw [if_neg hfits]
    have hcap : 0 < if ss.capacity = 0 then 64 else ss.capacity := by split <;> omega
    obtain ⟨newCap, hgrow, hroom⟩ := growLoop_spec hcap hneeded
      (hneeded.trans ((by decide : 2 ^ 63 ≤ 2 ^ 64).trans (Nat.le_mul_of_pos_left _ hcap)))
    rw [hgrow]
    cases mem with
    | none => exact .inr ⟨rfl, rfl⟩
    | some junk =>
      refine .inl ⟨_, rfl, ⟨h.size, h.pos, h.pos_le, ?_, length_realloc .., h.fits⟩, hroom⟩
      obtain ⟨rest, hdata⟩ := h.data
      have hlen : ss.capacity = c.text.length + (rest.length + 1) := by
        rw [← h.capacity, hdata]
        simp
      have htake := take_realloc (n := newCap) junk (k := c.text.length + 1) (by omega)
        (show c.text.length + 1 ≤ ss.data.length by rw [h.capacity]; omega)
      refine ⟨(realloc ss.data newCap junk).drop (c.text.length + 1), ?_⟩
      have hsplit := (List.take_append_drop (c.text.length + 1) (realloc ss.data newCap junk)).symm
      rw [htake, hdata, List.take_append, List.take_of_length_le (Nat.le_succ _),
        Nat.add_sub_cancel_left] at hsplit
      simpa [hdata] using hsplit

/-- The text with bytes written over it from `k` on. -/
def put (text : List UInt8) (k : Nat) (bytes : List UInt8) : List UInt8 :=
  text.take k ++ (bytes ++ text.drop (k + bytes.length))

theorem length_put {text : List UInt8} {k : Nat} (bytes : List UInt8) (hk : k ≤ text.length) :
    (put text k bytes).length = max text.length (k + bytes.length) := by
  simp only [put, List.length_append, List.length_take, List.length_drop]
  omega

theorem put_length (text bytes : List UInt8) : put text text.length bytes = text ++ bytes := by
  rw [put, List.take_length, List.drop_of_length_le (Nat.le_add_right ..), List.append_nil]

/-- Bytes written over the text from `k` on, and a NUL behind what is then the text. -/
theorem Carries.put (h : Carries ss c) {k p : Nat} (bytes : List UInt8) (hk : k ≤ c.text.length)
    (hroom : k + bytes.length < ss.data.length) (hp : p ≤ max c.text.length (k + bytes.length))
    (hfits : k + bytes.length < 2 ^ 63) :
    ∃ data data', store ss.data k bytes = some data ∧
      store data (max c.text.length (k + bytes.length)) [0] = some data' ∧
      Carries { ss with data := data', size := max c.text.length (k + bytes.length), pos := p }
        ⟨Streams.put c.text k bytes, p⟩ := by
  obtain ⟨rest, hdata⟩ := h.data
  have hlen : ss.data.length = c.text.length + (rest.length + 1) := by rw [hdata]; simp
  -- what the block has behind the new text
  obtain ⟨behind, hbehind⟩ : ∃ l, l = (0 :: rest).drop (k + bytes.length - c.text.length) :=
    ⟨_, rfl⟩
  have htextlen := length_put bytes hk
  have hbehindlen : behind.length = ss.data.length - (Streams.put c.text k bytes).length := by
    rw [hbehind, htextlen, List.length_drop, List.length_cons]
    omega
  have hstore : store ss.data k bytes = some (Streams.put c.text k bytes ++ behind) := by
    rw [store_eq (by omega), hdata, List.take_append_of_le_length hk, List.drop_append, hbehind,
      Streams.put]
    simp only [List.append_assoc]
  have hone : [(0 : UInt8)].length ≤ behind.length := by
    rw [hbehindlen, htextlen, List.length_singleton]
    omega
  have hnul := store_append (l := Streams.put c.text k bytes) hone
  rw [htextlen] at hnul
  refine ⟨_, _, hstore, hnul, htextlen.symm, rfl, htextlen ▸ hp, ⟨_, rfl⟩, ?_, ?_⟩
  · rw [← h.capacity]
    simp only [List.length_append, List.length_drop, hbehindlen, htextlen, List.length_singleton]
    omega
  · have hold := h.fits
    show (Streams.put c.text k bytes).length < _
    rw [htextlen]
    omega

theorem toSize_eq (hn : n < 2 ^ 64) : toSize n = n := Nat.mod_eq_of_lt hn

/-- What a write at the cursor does: it makes room, copies the bytes and puts the NUL back. -/
theorem Carries.putHere (h : Carries ss c) (hfits : ss.pos + bytes.length < 2 ^ 63) (mem : Alloc) :
    (∃ ss' data data' size,
      stringStreamEnsureCapacity ss (toSize (ss.pos + bytes.length + 1)) mem = some (ss', true) ∧
      store ss'.data ss'.pos bytes = some data ∧
      (if ss'.size < toSize (ss'.pos + bytes.length) then toSize (ss'.pos + bytes.length)
        else ss'.size) = size ∧
      store data size [0] = some data' ∧
      Carries { ss' with data := data', size := size, pos := toSize (ss'.pos + bytes.length) }
        (c.overwrite bytes)) ∨
    mem = none ∧
      stringStreamEnsureCapacity ss (toSize (ss.pos + bytes.length + 1)) mem =
      some (ss, false) := by
  rw [toSize_eq (by omega)]
  rcases h.ensureCapacity (Nat.succ_le_of_lt hfits) mem with ⟨ss', hensure, h', hroom⟩ | hfail
  · left
    have hsame : ss'.pos = ss.pos := h'.pos.trans h.pos.symm
    have hk : ss'.pos ≤ c.text.length := h'.pos ▸ h'.pos_le
    obtain ⟨data, data', hstore, hnul, hholds⟩ := h'.put (p := ss'.pos + bytes.length) bytes hk
      (by rw [h'.capacity, hsame]; omega) (Nat.le_max_right ..) (by omega)
    have hpos : toSize (ss'.pos + bytes.length) = ss'.pos + bytes.length := toSize_eq (by omega)
    have hover : c.overwrite bytes =
        ⟨Streams.put c.text ss'.pos bytes, ss'.pos + bytes.length⟩ := by
      rw [h'.pos]
      rfl
    refine ⟨ss', data, data', _, hensure, hstore, ?_, hnul, hover ▸ hpos.symm ▸ hholds⟩
    rw [hpos, h'.size]
    split <;> omega
  · exact .inr hfail

/-- A write at the cursor. -/
theorem Carries.write (h : Carries ss c) (hfits : ss.pos + bytes.length < 2 ^ 63) (mem : Alloc) :
    (∃ ss', stringWriteImpl ss bytes mem = some (ss', (bytes.length : Int)) ∧
      Carries ss' (c.overwrite bytes)) ∨
      mem = none ∧ stringWriteImpl ss bytes mem = some (ss, -1) := by
  rcases h.putHere hfits mem with
    ⟨ss', data, data', size, hensure, hstore, hsize, hnul, hholds⟩ | ⟨hnone, hensure⟩
  · have hret : toSsize bytes.length = bytes.length := by
      rw [toSsize, Nat.mod_eq_of_lt (by omega), if_pos (by omega)]
    refine .inl ⟨_, ?_, hholds⟩
    simp only [stringWriteImpl, hensure, Option.bind_eq_bind, Option.bind_some, if_true, hstore,
      hsize, hnul, hret]
  · refine .inr ⟨hnone, ?_⟩
    simp [stringWriteImpl, hensure]

theorem Carries.length_overwrite (h : Carries ss c) (bytes : List UInt8) :
    (c.overwrite bytes).text.length = max c.text.length (ss.pos + bytes.length) := by
  rw [h.pos]
  exact length_put bytes h.pos_le

theorem Holds.write (h : Holds ss c) (hsmall : ss.pos + bytes.length < 2 ^ 62) (mem : Alloc) :
    (∃ ss', stringWriteImpl ss bytes mem = some (ss', (bytes.length : Int)) ∧
      Holds ss' (c.overwrite bytes)) ∨
      mem = none ∧ stringWriteImpl ss bytes mem = some (ss, -1) := by
  have hold := h.small
  have hlen := h.carries.length_overwrite bytes
  exact (h.carries.write (by omega) mem).imp_left fun ⟨ss', hwrite, h'⟩ =>
    ⟨ss', hwrite, h'.holds (by omega)⟩

/-- A write at the end. -/
theorem Holds.writeLen (h : Holds ss c) (hsmall : ss.size + bytes.length < 2 ^ 62) (mem : Alloc) :
    (∃ ss', stringStreamWriteLen ss bytes mem = some (ss', toInt bytes.length) ∧
      Holds ss' (c.append bytes)) ∨
      mem = none ∧ stringStreamWriteLen ss bytes mem = some (ss, -1) := by
  have hneeded : toSize (ss.size + bytes.length + 1) = ss.size + bytes.length + 1 :=
    toSize_eq (by omega)
  have hensure := h.carries.ensureCapacity (by omega : ss.size + bytes.length + 1 ≤ 2 ^ 63) mem
  simp only [stringStreamWriteLen, hneeded]
  rcases hensure with ⟨ss', hensure, h', hroom⟩ | ⟨hnone, hensure⟩
  · left
    have hsame : ss'.size = ss.size := h'.size.trans h.size.symm
    have hsize : ss'.size = c.text.length := h'.size
    obtain ⟨data, data', hstore, hnul, hholds⟩ := h'.put (p := c.pos) bytes (Nat.le_refl _)
      (by rw [h'.capacity, ← hsize, hsame]; omega) (h.pos_le.trans (Nat.le_max_left ..))
      (by omega)
    have hsmall' : (c.text ++ bytes).length < 2 ^ 62 := by
      rw [List.length_append]
      omega
    have hmax : max c.text.length (c.text.length + bytes.length) = c.text.length + bytes.length :=
      Nat.max_eq_right (Nat.le_add_right ..)
    have hend : toSize (c.text.length + bytes.length) = c.text.length + bytes.length :=
      toSize_eq (by omega)
    rw [hmax] at hnul hholds
    rw [put_length] at hholds
    refine ⟨_, ?_, hholds.holds hsmall'⟩
    simp only [hensure, Option.bind_eq_bind, Option.bind_some, if_true, hsize, hstore, hend, hnul,
      ← h'.pos]
  · right
    refine ⟨hnone, ?_⟩
    simp [hensure]

theorem Holds.write_string (h : Holds ss c) {str : CString}
    (hsmall : ss.size + str.bytes.length < 2 ^ 62) (mem : Alloc) :
    (∃ ss', stringStreamWrite ss str mem = some (ss', toInt str.bytes.length) ∧
      Holds ss' (c.append str.bytes)) ∨
      mem = none ∧ stringStreamWrite ss str mem = some (ss, -1) := by
  have htake : str.mem.take str.len = str.bytes := List.take_left
  rw [stringStreamWrite, htake]
  exact h.writeLen hsmall mem

/-- The cursor may be anywhere in the text. -/
theorem Carries.setPos (h : Carries ss c) {p : Nat} (hp : p ≤ c.text.length) :
    Carries { ss with pos := p } { c with pos := p } :=
  ⟨h.size, rfl, hp, h.data, h.capacity, h.fits⟩

theorem Holds.setPos (h : Holds ss c) {p : Nat} (hp : p ≤ c.text.length) :
    Holds { ss with pos := p } { c with pos := p } :=
  (h.carries.setPos hp).holds h.small

theorem Holds.getElem? (h : Holds ss c) {k : Nat} (hk : k < c.text.length) :
    ss.data[k]? = c.text[k]? := by
  obtain ⟨rest, hdata⟩ := h.data
  rw [hdata, List.getElem?_append_left hk]

/-- A read moves the cursor and changes nothing else. -/
theorem Carries.read (h : Carries ss c) (n : Nat) :
    stringReadImpl ss n =
        some ({ ss with pos := c.pos + (c.ahead n).length }, c.ahead n) ∧
      Carries { ss with pos := c.pos + (c.ahead n).length } (c.advance (c.ahead n).length) := by
  have hfits := h.fits
  have hle := h.pos_le
  have hsize := h.size
  have hpos := h.pos
  rw [stringReadImpl]
  by_cases hend : ss.size ≤ ss.pos
  · have hnil : c.ahead n = [] := by
      rw [Cursor.ahead, List.drop_of_length_le (by omega), List.take_nil]
    have hsame : ({ ss with pos := c.pos + ([] : List UInt8).length } : StringStream) = ss := by
      rw [List.length_nil, Nat.add_zero, ← hpos]
    rw [if_pos hend, hnil, hsame]
    exact ⟨rfl, h⟩
  · rw [if_neg hend]
    -- as many bytes as are left
    obtain ⟨k, hk⟩ : ∃ k, k = if ss.size - ss.pos < n then ss.size - ss.pos else n := ⟨_, rfl⟩
    have hkle : k ≤ c.text.length - c.pos := by
      rw [hk]
      split <;> omega
    have hahead : c.ahead n = (c.text.drop c.pos).take k := by
      rw [Cursor.ahead, hk, hsize, hpos]
      split
      · next hlt => rw [List.take_of_length_le (by simp; omega), List.take_of_length_le (by simp)]
      · rfl
    have hload : load ss.data ss.pos k = some (c.ahead n) := by
      obtain ⟨rest, hdata⟩ := h.data
      have hlen : ss.data.length = c.text.length + (rest.length + 1) := by rw [hdata]; simp
      rw [load_eq (by omega), hahead, hdata, hpos, List.drop_append_of_le_length hle,
        List.take_append_of_le_length (by simpa using hkle)]
    have hlen : (c.ahead n).length = k := by
      rw [hahead, List.length_take, List.length_drop]
      omega
    have hnext : toSize (ss.pos + k) = c.pos + k := by rw [hpos, toSize_eq (by omega)]
    refine ⟨?_, h.setPos (by omega)⟩
    simp only [← hk, hload, Option.map_some, hnext, hlen]

theorem Holds.read (h : Holds ss c) (n : Nat) :
    ∃ ss', stringReadImpl ss n = some (ss', c.ahead n) ∧
    Holds ss' (c.advance (c.ahead n).length) := by
  obtain ⟨hread, h'⟩ := h.carries.read n
  exact ⟨_, hread, h'.holds h.small⟩

theorem Carries.load_rest (h : Carries ss c) :
    load ss.data ss.pos (ss.size - ss.pos) = some (c.text.drop c.pos) := by
  obtain ⟨rest, hdata⟩ := h.data
  have hlen : ss.data.length = c.text.length + (rest.length + 1) := by rw [hdata]; simp
  have hle := h.pos_le
  rw [h.size, h.pos, load_eq (by omega), hdata, List.drop_append_of_le_length hle,
    List.take_append_of_le_length (by simp), List.take_of_length_le (by simp)]

theorem Holds.readChar (h : Holds ss c) :
    ∃ ss', Holds ss' ss'.cursor ∧
      match c.text[c.pos]? with
      | none => stringReadCharImpl ss = some (ss', eof) ∧ ss' = ss
      | some b =>
        stringReadCharImpl ss = some (ss', (b.toNat : Int)) ∧ ss'.cursor = c.advance 1 := by
  have hsmall := h.small
  have hle := h.pos_le
  by_cases hend : c.text.length ≤ c.pos
  · rw [stringReadCharImpl, if_pos (by rw [h.size, h.pos]; exact hend),
      List.getElem?_eq_none hend]
    exact ⟨ss, h.cursor_eq.symm ▸ h, rfl, rfl⟩
  · have hlt : c.pos < c.text.length := by omega
    have h' := h.setPos (p := c.pos + 1) hlt
    have hpos : toSize (ss.pos + 1) = c.pos + 1 := by rw [h.pos, toSize_eq (by omega)]
    rw [stringReadCharImpl, if_neg (by rw [h.size, h.pos]; exact hend), hpos, h.pos,
      h.getElem? hlt, List.getElem?_eq_getElem hlt]
    exact ⟨_, h'.cursor_eq.symm ▸ h', rfl, h'.cursor_eq⟩

/-- A seek leads to its target if that lies in the text. -/
theorem Holds.seekTarget (h : Holds ss c) {offset : Int} (whence : Int) (hmin : -2 ^ 63 ≤ offset)
    (hmax : offset < 2 ^ 63) :
    (∃ p : Nat, c.target offset whence = some (p : Int) ∧ p ≤ c.text.length ∧
      Streams.seekTarget ss offset whence = some p) ∨
    (∀ p : Nat, c.target offset whence = some (p : Int) → c.text.length < p) ∧
      Streams.seekTarget ss offset whence = none := by
  have hsmall := h.small
  have hle := h.pos_le
  -- sizes below `2^62` survive the casts to `ssize_t` and back
  have hssize : ∀ n : Nat, n < 2 ^ 62 → toSsize n = n := by
    intro n hn
    rw [toSsize, Nat.mod_eq_of_lt (by omega), if_pos (by omega)]
  have hpos : ∀ z : Int, 0 ≤ z → z < 2 ^ 64 → (sizeOfInt z : Int) = z := by
    intro z hz hz'
    rw [sizeOfInt, Int.emod_eq_of_lt hz hz', Int.toNat_of_nonneg hz]
  rw [Streams.seekTarget, Cursor.target, h.pos, h.size, hssize _ (by omega), hssize _ hsmall]
  by_cases hset : whence = 0
  · simp only [if_pos hset]
    by_cases hneg : offset < 0
    · refine .inr ⟨fun p hp => ?_, if_pos (.inl hneg)⟩
      have := Option.some.inj hp
      omega
    · have hoff := hpos offset (by omega) (by omega)
      by_cases hgt : c.text.length < sizeOfInt offset
      · refine .inr ⟨fun p hp => ?_, if_pos (.inr hgt)⟩
        have := Option.some.inj hp
        omega
      · exact .inl ⟨sizeOfInt offset, by rw [hoff], by omega, if_neg (by omega)⟩
  simp only [if_neg hset]
  by_cases hcur : whence = 1
  · simp only [if_pos hcur]
    by_cases hneg : offset < 0
    · -- backward: the code compares the distance with the position, not the target with zero
      have hoff := hpos (-offset) (by omega) (by omega)
      by_cases hlt : c.pos < sizeOfInt (-offset)
      · refine .inr ⟨fun p hp => ?_, if_pos ⟨hneg, hlt⟩⟩
        have := Option.some.inj hp
        omega
      · have htarget := hpos (c.pos + offset) (by omega) (by omega)
        refine .inl ⟨sizeOfInt (c.pos + offset), by rw [htarget], by omega, ?_⟩
        rw [if_neg (by omega), if_neg (by omega)]
    · have hoff := hpos offset (by omega) (by omega)
      -- forward: the sum does not wrap, so the bound check is the one on the target
      have hsum : toSize (c.pos + sizeOfInt offset) = c.pos + sizeOfInt offset :=
        toSize_eq (by omega)
      rw [if_neg (by omega), hsum]
      by_cases hgt : 0 < offset ∧ c.text.length < c.pos + sizeOfInt offset
      · refine .inr ⟨fun p hp => ?_, if_pos hgt⟩
        have := Option.some.inj hp
        omega
      · have htarget := hpos (c.pos + offset) (by omega) (by omega)
        exact .inl ⟨sizeOfInt (c.pos + offset), by rw [htarget], by omega, if_neg hgt⟩
  simp only [if_neg hcur]
  by_cases hend : whence = 2
  · simp only [if_pos hend]
    by_cases hgt : 0 < offset
    · refine .inr ⟨fun p hp => ?_, if_pos (.inl hgt)⟩
      have := Option.some.inj hp
      omega
    · have hoff := hpos (-offset) (by omega) (by omega)
      by_cases hlt : c.text.length < sizeOfInt (-offset)
      · refine .inr ⟨fun p hp => ?_, if_pos (.inr hlt)⟩
        have := Option.some.inj hp
        omega
      · have htarget := hpos (c.text.length + offset) (by omega) (by omega)
        exact .inl ⟨sizeOfInt (c.text.length + offset), by rw [htarget], by omega,
          if_neg (by omega)⟩
  · simp only [if_neg hend]
    exact .inr ⟨nofun, trivial⟩

theorem createStringStream_holds (initialCapacity : Nat) (memStream : Bool) (mem : Alloc) :
    (∃ ss, createStringStream initialCapacity memStream mem = some ss ∧ Holds ss ⟨[], 0⟩) ∨
      (memStream = false ∨ mem = none) ∧
        createStringStream initialCapacity memStream mem = none := by
  cases memStream with
  | false => exact .inr ⟨.inl rfl, rfl⟩
  | true =>
    cases mem with
    | none => exact .inr ⟨.inr rfl, rfl⟩
    | some junk =>
      left
      obtain ⟨cap, hcap⟩ : ∃ cap, cap = if 0 < initialCapacity then initialCapacity else 1 :=
        ⟨_, rfl⟩
      have hpos : 1 ≤ cap := by
        rw [hcap]
        split <;> omega
      have hstore : store (extent junk cap) 0 [0] =
        some ([] ++ ([0] ++ (extent junk cap).drop 1)) :=
        store_append (l := []) (by simpa using hpos)
      refine ⟨⟨_, 0, cap, 0⟩, ?_, rfl, rfl, Nat.le_refl _, ⟨(extent junk cap).drop 1, rfl⟩, ?_,
        by decide⟩
      · simp only [createStringStream, if_true, Option.bind_some, ← hcap, hstore, Option.map_some]
        rfl
      · simp only [List.nil_append, List.length_cons, List.length_drop, length_extent]
        omega

/-! ## Calls -/

/-- Every stream holds a text. -/
def Good (streams : List StringStream) : Prop := ∀ ss ∈ streams, Holds ss ss.cursor

def view (streams : List StringStream) : List Cursor := streams.map StringStream.cursor

variable {streams : List StringStream} {i : Nat}

theorem Good.get (h : Good streams) (hi : streams[i]? = some ss) :
    Holds ss ss.cursor ∧ (view streams)[i]? = some ss.cursor := by
  refine ⟨h ss (List.mem_of_getElem? hi), ?_⟩
  rw [view, List.getElem?_map, hi]
  rfl

theorem Good.set (h : Good streams) (h' : Holds ss' c) (i : Nat) :
    Good (streams.set i ss') ∧ view (streams.set i ss') = (view streams).set i c := by
  constructor
  · intro ss hss
    rcases List.mem_or_eq_of_mem_set hss with hss | rfl
    · exact h ss hss
    · exact h'.cursor_eq.symm ▸ h'
  · rw [view, List.map_set, h'.cursor_eq]
    rfl

theorem set_self {α : Type*} {l : List α} {x : α} (h : l[i]? = some x) : l.set i x = l := by
  obtain ⟨hi, rfl⟩ := List.getElem?_eq_some_iff.mp h
  exact List.set_getElem_self hi

/-- A call on one stream, which then holds another text. -/
theorem Good.onStream (h : Good streams) (call : StringStream → Option (StringStream × Int))
    {code : Int} (hi : streams[i]? = some ss) (hcall : call ss = some (ss', code))
    (h' : Holds ss' c) :
    ∃ streams', Streams.onStream streams i call = some (streams', ⟨code, []⟩) ∧ Good streams' ∧
      view streams' = (view streams).set i c := by
  refine ⟨streams.set i ss', ?_, h.set h' i⟩
  simp only [Streams.onStream, hi, Option.bind_eq_bind, Option.bind_some, hcall]

/-- A call on one stream that leaves it as it is. -/
theorem Good.onStream_same (h : Good streams) (call : StringStream → Option (StringStream × Int))
    {code : Int} (hi : streams[i]? = some ss) (hcall : call ss = some (ss, code)) :
    ∃ streams', Streams.onStream streams i call = some (streams', ⟨code, []⟩) ∧ Good streams' ∧
      view streams' = view streams := by
  refine ⟨streams, ?_, h, rfl⟩
  simp only [Streams.onStream, hi, Option.bind_eq_bind, Option.bind_some, hcall, set_self hi]

/-- A call that writes, or fails for want of memory. -/
theorem Good.onStream_write (h : Good streams) (call : StringStream → Option (StringStream × Int))
    {code : Int} {c' : Cursor} (hi : streams[i]? = some ss)
    (hcall : (∃ ss', call ss = some (ss', code) ∧ Holds ss' c') ∨
      mem = none ∧ call ss = some (ss, -1)) (hcode : code ≠ -1) :
    ∃ streams' r, Streams.onStream streams i call = some (streams', r) ∧ Good streams' ∧
      (mem = none ∧ r.code = -1 ∧ view streams' = view streams ∨
        r.code = code ∧ view streams' = (view streams).set i c') ∧
      (r.code = -1 → view streams' = view streams) := by
  rcases hcall with ⟨ss', hcall, h'⟩ | ⟨hnone, hcall⟩
  · obtain ⟨streams', hperform, hgood, hview⟩ := h.onStream call hi hcall h'
    exact ⟨streams', _, hperform, hgood, .inr ⟨rfl, hview⟩, fun heq => absurd heq hcode⟩
  · obtain ⟨streams', hperform, hgood, hview⟩ := h.onStream_same call hi hcall
    exact ⟨streams', _, hperform, hgood, .inl ⟨hnone, rfl, hview⟩, fun _ => hview⟩

theorem Cursor.overwrite_nil (c : Cursor) : c.overwrite [] = c := by
  rw [Cursor.overwrite, List.nil_append, List.length_nil, Nat.add_zero, List.take_append_drop]

/-- Copying between two streams: all that is left in the one is written to the other. -/
theorem Carries.copyFast {dst src : Nat} {d s : StringStream} {cd cs : Cursor}
    (hd : streams[dst]? = some d) (hs : streams[src]? = some s) (hD : Carries d cd)
    (hS : Carries s cs) (hne : dst ≠ src)
    (hfits : cd.pos + (cs.text.drop cs.pos).length < 2 ^ 63) (mem : Alloc) :
    (∃ d', stringStreamCopyFast streams dst src mem =
        some ((streams.set dst d').set src
          { s with pos := cs.pos + (cs.text.drop cs.pos).length },
          ((cs.text.drop cs.pos).length : Int)) ∧
      Carries d' (cd.overwrite (cs.text.drop cs.pos))) ∨
    mem = none ∧ stringStreamCopyFast streams dst src mem = some (streams, 2 ^ 64 - 1) := by
  have hload := hS.load_rest
  have hfitsS := hS.fits
  have hsizeS := hS.size
  have hposS := hS.pos
  obtain ⟨bytes, hbytes⟩ : ∃ l, l = cs.text.drop cs.pos := ⟨_, rfl⟩
  rw [← hbytes] at hload hfits ⊢
  have hlen : bytes.length = s.size - s.pos := by
    rw [hbytes, List.length_drop]
    omega
  by_cases hend : s.size ≤ s.pos
  · have hnil : bytes = [] := List.length_eq_zero_iff.mp (by omega)
    have hsame : ({ s with pos := cs.pos + ([] : List UInt8).length } : StringStream) = s := by
      rw [List.length_nil, Nat.add_zero, ← hposS]
    refine .inl ⟨d, ?_, by rw [hnil, Cursor.overwrite_nil]; exact hD⟩
    rw [hnil, hsame, set_self hd, set_self hs]
    simp only [stringStreamCopyFast, hs, hd, Option.bind_eq_bind, Option.bind_some, if_pos hend]
    rfl
  · rcases hD.putHere (by rw [hD.pos]; exact hfits : d.pos + bytes.length < 2 ^ 63) mem with
      ⟨d', data, data', size, hensure, hstore, hsize, hnul, hholds⟩ | ⟨hnone, hensure⟩
    · -- the source ends at its end, whatever became of the destination
      have hnext : toSize (s.pos + (s.size - s.pos)) = cs.pos + bytes.length := by
        rw [hlen, ← hposS, toSize_eq (by omega)]
      rw [hlen] at hensure hsize hholds
      refine .inl ⟨_, ?_, hholds⟩
      simp only [stringStreamCopyFast, hs, hd, Option.bind_eq_bind, Option.bind_some, if_neg hend,
        hensure, if_true, List.getElem?_set_ne hne, hload, hstore, hsize, hnul, List.set_set,
        hnext, hlen]
    · rw [hlen] at hensure
      refine .inr ⟨hnone, ?_⟩
      simp only [stringStreamCopyFast, hs, hd, Option.bind_eq_bind, Option.bind_some, if_neg hend,
        hensure, set_self hd]
      rfl

/-- Copying between two streams, or nothing. -/
theorem Good.copy (h : Good streams) {dst src : Nat} {d s : StringStream}
    (hd : streams[dst]? = some d) (hs : streams[src]? = some s)
    (hsmall : d.pos + (s.size - s.pos) < 2 ^ 62) (hclean : dst = src → s.size ≤ s.pos)
    (mem : Alloc) :
    ∃ streams' code, stringStreamCopyFast streams dst src mem = some (streams', code) ∧
      Good streams' ∧
      (mem = none ∧ code = 2 ^ 64 - 1 ∧ view streams' = view streams ∨
        code = (s.cursor.text.drop s.cursor.pos).length ∧
          view streams' = ((view streams).set dst
            (d.cursor.overwrite (s.cursor.text.drop s.cursor.pos))).set src
              (s.cursor.advance code.toNat)) := by
  obtain ⟨hholdsD, hviewD⟩ := h.get hd
  obtain ⟨hholdsS, hviewS⟩ := h.get hs
  obtain ⟨bytes, hbytes⟩ : ∃ l, l = s.cursor.text.drop s.cursor.pos := ⟨_, rfl⟩
  have hlen : bytes.length = s.size - s.pos := by
    rw [hbytes, List.length_drop, hholdsS.size, hholdsS.pos]
  by_cases hsame : dst = src
  · -- there is nothing to copy
    have hend := hclean hsame
    have hnil : bytes = [] := List.length_eq_zero_iff.mp (by omega)
    rw [← hbytes, hnil]
    refine ⟨streams, 0, ?_, h, .inr ⟨rfl, ?_⟩⟩
    · simp only [stringStreamCopyFast, hs, hd, Option.bind_eq_bind, Option.bind_some, if_pos hend]
    · have hadvance : s.cursor.advance (0 : Int).toNat = s.cursor := rfl
      rw [Cursor.overwrite_nil, set_self hviewD, hadvance, set_self hviewS]
  have hposD := hholdsD.pos
  have hsmallD := hholdsD.small
  have hroom : d.cursor.pos + (s.cursor.text.drop s.cursor.pos).length < 2 ^ 62 := by
    rw [← hbytes, ← hposD]
    omega
  have hover := hholdsD.carries.length_overwrite (s.cursor.text.drop s.cursor.pos)
  have hcopy := Carries.copyFast hd hs hholdsD.carries hholdsS.carries hsame (by omega) mem
  rw [← hbytes] at hcopy hroom hover ⊢
  rcases hcopy with ⟨d', hcopy, hcarries⟩ | ⟨hnone, hcopy⟩
  · have hend' : s.cursor.pos + bytes.length ≤ s.cursor.text.length := by
      rw [hbytes, List.length_drop]
      have := hholdsS.pos_le
      omega
    obtain ⟨hgood, hview⟩ := h.set (hcarries.holds (by omega)) dst
    obtain ⟨hgood', hview'⟩ := hgood.set (hholdsS.setPos hend') src
    refine ⟨_, bytes.length, hcopy, hgood', .inr ⟨rfl, ?_⟩⟩
    rw [hview', hview]
    rfl
  · exact ⟨streams, _, hcopy, h, .inl ⟨hnone, rfl, rfl⟩⟩

theorem toInt_ne (h : n % 2 ^ 32 ≠ 2 ^ 32 - 1) : toInt n ≠ -1 := by
  unfold toInt
  split <;> omega

/-- The call returns and has its effect; with its failure value it has none. -/
def Performs (streams : List StringStream) (op : StreamOp) : Prop :=
  ∃ streams' r, Streams.perform streams op = some (streams', r) ∧ Good streams' ∧
    Effect op (view streams) (view streams') r ∧
    (r.code = op.failure → view streams' = view streams)

theorem Good.performs_create (h : Good streams) (initialCapacity : Nat) (memStream : Bool)
    (mem : Alloc) : Performs streams (.create initialCapacity memStream mem) := by
  rcases createStringStream_holds initialCapacity memStream mem with
    ⟨ss, hcreate, hholds⟩ | ⟨hfail, hcreate⟩
  · refine ⟨streams ++ [ss], ⟨streams.length, []⟩, by rw [Streams.perform, hcreate], ?_,
      .inr ⟨by simp [view], ?_⟩, fun hcode => absurd hcode (by simp [StreamOp.failure])⟩
    · intro ss' hss'
      rcases List.mem_append.mp hss' with hss' | hss'
      · exact h ss' hss'
      · rw [List.mem_singleton.mp hss']
        exact hholds.cursor_eq.symm ▸ hholds
    · rw [view, List.map_append, List.map_singleton, hholds.cursor_eq]
      rfl
  · exact ⟨streams, ⟨-1, []⟩, by rw [Streams.perform, hcreate], h, .inl ⟨hfail, rfl, rfl⟩,
      fun _ => rfl⟩

theorem Good.performs_read (h : Good streams) (hi : streams[i]? = some ss) (n : Nat) :
    Performs streams (.read i n) := by
  obtain ⟨hholds, hview⟩ := h.get hi
  obtain ⟨ss', hread, hholds'⟩ := hholds.read n
  obtain ⟨hgood, hview'⟩ := h.set hholds' i
  have hlen : (ss.cursor.ahead n).length < 2 ^ 62 := by
    have hsmall := hholds.small
    rw [Cursor.ahead, List.length_take, List.length_drop]
    omega
  have hret : toSsize (ss.cursor.ahead n).length = (ss.cursor.ahead n).length := by
    rw [toSsize, Nat.mod_eq_of_lt (by omega), if_pos (by omega)]
  refine ⟨streams.set i ss', ⟨(ss.cursor.ahead n).length, ss.cursor.ahead n⟩, ?_, hgood,
    ⟨ss.cursor, hview, rfl, hview'⟩, fun hcode => absurd hcode (by simp [StreamOp.failure])⟩
  simp only [Streams.perform, hi, Option.bind_eq_bind, Option.bind_some, hread, hret]

theorem Good.performs_readChar (h : Good streams) (hi : streams[i]? = some ss) :
    Performs streams (.readChar i) := by
  obtain ⟨hholds, hview⟩ := h.get hi
  obtain ⟨ss', hholds', hread⟩ := hholds.readChar
  cases hchar : ss.cursor.text[ss.cursor.pos]? with
  | none =>
    rw [hchar] at hread
    obtain ⟨hread, rfl⟩ := hread
    obtain ⟨streams', hperform, hgood, hview'⟩ := h.onStream_same stringReadCharImpl hi hread
    exact ⟨streams', _, hperform, hgood, ⟨_, hview, by rw [hchar]; exact ⟨rfl, hview'⟩⟩,
      fun _ => hview'⟩
  | some b =>
    rw [hchar] at hread
    obtain ⟨hread, hcursor⟩ := hread
    obtain ⟨streams', hperform, hgood, hview'⟩ :=
      h.onStream stringReadCharImpl hi hread (hcursor ▸ hholds')
    exact ⟨streams', _, hperform, hgood, ⟨_, hview, by rw [hchar]; exact ⟨rfl, hview'⟩⟩,
      fun hcode => absurd hcode (by simp [StreamOp.failure])⟩

theorem Good.performs_seek (h : Good streams) (hi : streams[i]? = some ss) {offset : Int}
    (whence : Int) (hmin : -2 ^ 63 ≤ offset) (hmax : offset < 2 ^ 63) :
    Performs streams (.seek i offset whence) := by
  obtain ⟨hholds, hview⟩ := h.get hi
  rcases hholds.seekTarget whence hmin hmax with ⟨p, htarget, hp, hseek⟩ | ⟨hnone, hseek⟩
  · obtain ⟨streams', hperform, hgood, hview'⟩ :=
      h.onStream (fun ss => some (stringSeekImpl ss offset whence)) hi
        (by rw [stringSeekImpl, hseek]) (hholds.setPos hp)
    exact ⟨streams', _, hperform, hgood, ⟨_, hview, .inl ⟨p, htarget, hp, rfl, hview'⟩⟩,
      fun hcode => absurd hcode (by simp [StreamOp.failure])⟩
  · obtain ⟨streams', hperform, hgood, hview'⟩ :=
      h.onStream_same (fun ss => some (stringSeekImpl ss offset whence)) hi
        (by rw [stringSeekImpl, hseek])
    exact ⟨streams', _, hperform, hgood, ⟨_, hview, .inr ⟨hnone, rfl, hview'⟩⟩, fun _ => hview'⟩

theorem Good.performs_copy (h : Good streams) {dst src : Nat} {d s : StringStream}
    (hd : streams[dst]? = some d) (hs : streams[src]? = some s)
    (hsmall : d.pos + (s.size - s.pos) < 2 ^ 62) (hclean : dst = src → s.size ≤ s.pos)
    (mem : Alloc) : Performs streams (.copy dst src mem) := by
  obtain ⟨streams', code, hcopy, hgood, heffect⟩ := h.copy hd hs hsmall hclean mem
  obtain ⟨hholdsS, hviewS⟩ := h.get hs
  refine ⟨streams', ⟨code, []⟩, by rw [Streams.perform, hcopy]; rfl, hgood,
    ⟨_, _, (h.get hd).2, hviewS, heffect⟩, fun hcode => ?_⟩
  rcases heffect with ⟨-, -, hsame⟩ | ⟨hcode', -⟩
  · exact hsame
  · -- so many bytes cannot be copied
    have hsmallS := hholdsS.small
    have hall : ((s.cursor.text.drop s.cursor.pos).length : Int) = 2 ^ 64 - 1 :=
      hcode'.symm.trans hcode
    rw [List.length_drop] at hall
    omega

/-- Every call has its effect; with its failure value it has none. -/
theorem Good.perform (h : Good streams) {op : StreamOp} (hbounded : Bounded streams op)
    (hclean : Clean streams op) : Performs streams op := by
  cases op with
  | create initialCapacity memStream mem => exact h.performs_create initialCapacity memStream mem
  | read i n => exact h.performs_read (List.getElem?_eq_getElem hbounded) n
  | readChar i => exact h.performs_readChar (List.getElem?_eq_getElem hbounded)
  | write i bytes mem =>
    obtain ⟨ss, hi, hsmall⟩ := hbounded
    obtain ⟨hholds, hview⟩ := h.get hi
    obtain ⟨streams', r, hperform, hgood, heffect, hfail⟩ := h.onStream_write
      (stringWriteImpl · bytes mem) hi (hholds.write hsmall mem) (by omega)
    exact ⟨streams', r, hperform, hgood, ⟨_, hview, heffect⟩, hfail⟩
  | writeString i str mem =>
    obtain ⟨ss, hi, hsmall⟩ := hbounded
    obtain ⟨hholds, hview⟩ := h.get hi
    obtain ⟨streams', r, hperform, hgood, heffect, hfail⟩ := h.onStream_write
      (stringStreamWrite · str mem) hi (hholds.write_string hsmall mem) (toInt_ne hclean)
    exact ⟨streams', r, hperform, hgood, ⟨_, hview, heffect⟩, hfail⟩
  | writeLen i bytes mem =>
    obtain ⟨ss, hi, hsmall⟩ := hbounded
    obtain ⟨hholds, hview⟩ := h.get hi
    obtain ⟨streams', r, hperform, hgood, heffect, hfail⟩ := h.onStream_write
      (stringStreamWriteLen · bytes mem) hi (hholds.writeLen hsmall mem) (toInt_ne hclean)
    exact ⟨streams', r, hperform, hgood, ⟨_, hview, heffect⟩, hfail⟩
  | seek i offset whence =>
    obtain ⟨hlt, hmin, hmax⟩ := hbounded
    exact h.performs_seek (List.getElem?_eq_getElem hlt) whence hmin hmax
  | copy dst src mem =>
    obtain ⟨d, s, hd, hs, hsmall⟩ := hbounded
    exact h.performs_copy hd hs hsmall (fun heq => hclean heq s hs) mem

/-! ## Runs -/

/-- In every run in which no stream is copied onto itself with bytes left and no text of length
`2^32 - 1` modulo `2^32` is appended, every stream keeps its invariant, and every call does to
the texts and cursors what it says, or nothing if it reports a failure. -/
theorem streams_as_cursors
    (h : Reach stringStreams (fun s op => Bounded s op ∧ Clean s op) streams) :
    (∀ ss ∈ streams, ss.Inv) ∧ ∀ op, Bounded streams op → Clean streams op →
      ∃ streams' r, perform streams op = some (streams', r) ∧
        Effect op (view streams) (view streams') r ∧
        (r.code = op.failure → view streams' = view streams) := by
  have hgood : Good streams := by
    refine h.invariant Good ?_ fun s op s' hs hcond hstep => ?_
    · rintro s rfl ss hss
      exact absurd hss List.not_mem_nil
    · obtain ⟨r, hr⟩ := hstep
      obtain ⟨s'', r', hperform, hs'', -⟩ := hs.perform hcond.1 hcond.2
      obtain ⟨rfl, -⟩ := Prod.mk.inj (Option.some.inj (hr.symm.trans hperform))
      exact hs''
  refine ⟨fun ss hss => (hgood ss hss).inv, fun op hbounded hclean => ?_⟩
  obtain ⟨streams', r, hperform, -, heffect⟩ := hgood.perform hbounded hclean
  exact ⟨streams', r, hperform, heffect⟩

/-- Memory that is all zero. -/
def zeroes : Alloc := some fun _ => 0

theorem streams_as_cursors_letter : ∃ streams, Reach stringStreams
    (fun s op => Bounded s op ∧ Clean s op) streams ∧ (∀ ss ∈ streams, ss.Inv) ∧
      view streams = [⟨[0x61], 0⟩] := by
  have hcreate : Reach stringStreams (fun s op => Bounded s op ∧ Clean s op) [⟨[0], 0, 1, 0⟩] :=
    (Reach.init rfl).step (a := .create 0 true zeroes) ⟨trivial, trivial⟩
      ⟨⟨0, []⟩, by decide +kernel⟩
  have hwrite : Reach stringStreams (fun s op => Bounded s op ∧ Clean s op)
    [⟨[0x61, 0], 1, 2, 0⟩] :=
    hcreate.step (a := .writeLen 0 [0x61] zeroes)
      ⟨⟨_, rfl, by decide⟩, show [(0x61 : UInt8)].length % 2 ^ 32 ≠ 2 ^ 32 - 1 by decide⟩
      ⟨⟨1, []⟩, by decide +kernel⟩
  exact ⟨_, hwrite, (streams_as_cursors hwrite).1, rfl⟩

/-- A stream that is copied onto itself has its cursor moved twice; `2^32 - 1` bytes are appended
with the result -1. -/
theorem not_streams_as_cursors :
    (¬ ∀ streams, Reach stringStreams Bounded streams → ∀ ss ∈ streams, ss.Inv) ∧
    ¬ ∀ streams, Reach stringStreams Bounded streams → ∀ op, Bounded streams op →
      ∀ streams' r, perform streams op = some (streams', r) →
        r.code = op.failure → view streams' = view streams := by
  have hcreate : Reach stringStreams Bounded [⟨[0], 0, 1, 0⟩] :=
    (Reach.init rfl).step (a := .create 0 true zeroes) trivial ⟨⟨0, []⟩, by decide +kernel⟩
  constructor
  · intro h
    have hwrite : Reach stringStreams Bounded [⟨[0x61, 0], 1, 2, 0⟩] :=
      hcreate.step (a := .writeLen 0 [0x61] zeroes) ⟨_, rfl, by decide⟩
        ⟨⟨1, []⟩, by decide +kernel⟩
    -- the stream copied onto itself ends with its position beyond its size
    have hcopy : Reach stringStreams Bounded [⟨[0x61, 0], 1, 2, 2⟩] :=
      hwrite.step (a := .copy 0 0 none) ⟨_, _, rfl, rfl, by decide⟩ ⟨⟨1, []⟩, by decide +kernel⟩
    exact absurd (h _ hcopy _ List.mem_cons_self).pos_le (by decide)
  · intro h
    -- a write of `2^32 - 1` bytes succeeds and returns `-1`, the code of a failure
    obtain ⟨bytes, hlen⟩ : ∃ l : List UInt8, l.length = 2 ^ 32 - 1 :=
      ⟨List.replicate (2 ^ 32 - 1) 0x61, List.length_replicate⟩
    have hholds : Holds ⟨[0], 0, 1, 0⟩ ⟨[], 0⟩ :=
      ⟨rfl, rfl, Nat.le_refl _, ⟨[], rfl⟩, rfl, by decide⟩
    have hsmall : 0 + bytes.length < 2 ^ 62 := by
      rw [hlen]
      decide
    have hgood : Good [⟨[0], 0, 1, 0⟩] := by
      intro ss hss
      rw [List.mem_singleton.mp hss]
      exact hholds
    rcases hholds.writeLen hsmall zeroes with ⟨ss', hwrite, hholds'⟩ | ⟨hnone, -⟩
    · obtain ⟨streams', hperform, -, hview⟩ :=
        hgood.onStream (stringStreamWriteLen · bytes zeroes) (i := 0) rfl hwrite hholds'
      have hcode : toInt bytes.length = -1 := by
        rw [hlen]
        decide
      have hsame := h _ hcreate (.writeLen 0 bytes zeroes)
        ⟨_, rfl, hsmall⟩ streams' _ hperform hcode
      rw [hview] at hsame
      have htext := congrArg (fun v : List Cursor => v.map (·.text.length)) hsame
      simp [view, StringStream.cursor, Cursor.append, hlen] at htext
    · exact absurd hnone nofun

end Solidc.Streams
