import Solidc.Streams.Cursor
import Solidc.Text.Search

/-! # Reading up to a delimiter

`read_until` looks for the delimiter with `memchr` in a string stream and reads a file character by
character. What a call does is a function of the bytes that are left and of the buffer.

* `answer` — that function;
* `readUntil_answer` — both kinds of streams give it;
* `read_until_paths_agree` — so they agree call by call, and nothing of the content is lost.
-/

namespace Solidc.Streams

open CLib

/-! ## The code -/

/-- A `FILE` that is only read, with its end-of-file indicator. -/
structure FileStream where
  content : List UInt8
  pos : Nat
  atEof : Bool

/-- `fgetc`; with the indicator set there is nothing more. -/
def fgetc (fs : FileStream) : FileStream × Int :=
  match if fs.atEof then none else fs.content[fs.pos]? with
  | some b => ({ fs with pos := fs.pos + 1 }, b.toNat)
  | none => ({ fs with atEof := true }, eof)

/-- `(unsigned char)delim`, as `memchr` takes it. -/
def toByte (delim : Int) : UInt8 := UInt8.ofNat (delim % 256).toNat

/-- `read_until` on a string stream: what it returns, and the buffer of `buffer_size` bytes. -/
def readUntilString (ss : StringStream) (delim : Int) (buffer : List UInt8) :
    Option (StringStream × Int × List UInt8) :=
  if ss.size ≤ ss.pos then some (ss, -1, buffer)
  else do
    let avail := ss.size - ss.pos
    let maxRead := buffer.length - 1
    let checkLen := if avail < maxRead then avail else maxRead
    match ← Text.memchr ss.data ss.pos (toByte delim) checkLen with
    | some copyLen =>
      let buffer ← store buffer 0 (← load ss.data ss.pos copyLen)
      let buffer ← store buffer copyLen [0]
      some ({ ss with pos := toSize (ss.pos + (copyLen + 1)) }, toSsize copyLen, buffer)
    | none =>
      let buffer ← store buffer 0 (← load ss.data ss.pos checkLen)
      let buffer ← store buffer checkLen [0]
      some ({ ss with pos := toSize (ss.pos + checkLen) }, toSsize checkLen, buffer)

/-- The loop of `read_until` on a file, for `left` characters more. -/
def readUntilLoop (delim : Int) :
    Nat → FileStream → List UInt8 → Nat → Int → Option (FileStream × List UInt8 × Nat × Int)
  | 0, fs, buffer, bytes, ch => some (fs, buffer, bytes, ch)
  | left + 1, fs, buffer, bytes, _ =>
    let (fs, ch) := fgetc fs
    if ch = eof ∨ ch = delim then some (fs, buffer, bytes, ch)
    else do
      let buffer ← store buffer bytes [toByte ch]
      readUntilLoop delim left fs buffer (bytes + 1) ch

/-- `read_until` on a file. -/
def readUntilFile (fs : FileStream) (delim : Int) (buffer : List UInt8) :
    Option (FileStream × Int × List UInt8) := do
  let (fs, buffer, bytes, ch) ←
    readUntilLoop delim (toSsize (buffer.length - 1)).toNat fs buffer 0 0
  if ch = eof ∧ fs.atEof = true ∧ bytes = 0 then some (fs, -1, buffer)
  else (store buffer bytes [0]).map fun buffer => (fs, (bytes : Int), buffer)

/-- A stream of either type. -/
inductive Stream where
  | string (ss : StringStream)
  | file (fs : FileStream)

def Stream.pos : Stream → Nat
  | .string ss => ss.pos
  | .file fs => fs.pos

def readUntil (delim : Int) (buffer : List UInt8) : Stream → Option (Stream × Int × List UInt8)
  | .string ss => (readUntilString ss delim buffer).map fun (ss, r) => (.string ss, r)
  | .file fs => (readUntilFile fs delim buffer).map fun (fs, r) => (.file fs, r)

/-- What a call returns, the buffer afterwards, and how many bytes of the stream it has consumed. -/
structure ReadCall where
  ret : Int
  buffer : List UInt8
  consumed : Nat

/-- Calls with one buffer after the other. -/
def readAll (delim : Int) : List (List UInt8) → Stream → Option (Stream × List ReadCall)
  | [], s => some (s, [])
  | buffer :: buffers, s => do
    let (s', ret, buffer) ← readUntil delim buffer s
    let (s'', calls) ← readAll delim buffers s'
    some (s'', ⟨ret, buffer, s'.pos - s.pos⟩ :: calls)

/-! ## What a call should do -/

/-- The bytes up to the delimiter, and not more than `room`. -/
def piece (d : UInt8) (room : Nat) (rest : List UInt8) : List UInt8 :=
  (rest.take room).takeWhile (· ≠ d)

/-- How many bytes a call consumes: a delimiter that ends the piece is one of them. -/
def taken (d : UInt8) (room : Nat) (rest : List UInt8) : Nat :=
  let l := piece d room rest
  if l.length < (rest.take room).length then l.length + 1 else l.length

/-- The call with `rest` left. -/
def answer (d : UInt8) (rest buffer : List UInt8) : ReadCall :=
  if rest = [] then ⟨-1, buffer, 0⟩
  else
    let l := piece d (buffer.length - 1) rest
    ⟨l.length, l ++ 0 :: buffer.drop (l.length + 1), taken d (buffer.length - 1) rest⟩

def answers (d : UInt8) : List (List UInt8) → List UInt8 → List ReadCall
  | [], _ => []
  | buffer :: buffers, rest =>
    answer d rest buffer :: answers d buffers (rest.drop (answer d rest buffer).consumed)

/-- The piece that a call has put into the buffer, with the delimiter if that was consumed. -/
def ReadCall.text (d : UInt8) (c : ReadCall) : List UInt8 :=
  c.buffer.take c.ret.toNat ++ if c.ret.toNat < c.consumed then [d] else []

section Piece

variable {d : UInt8} {room : Nat} {rest buffer : List UInt8}

theorem piece_starts (d : UInt8) (room : Nat) (rest : List UInt8) :
    piece d room rest <+: rest.take room := List.takeWhile_prefix _

theorem piece_length_le (d : UInt8) (room : Nat) (rest : List UInt8) :
    (piece d room rest).length ≤ room ∧ (piece d room rest).length ≤ rest.length := by
  have hle := (piece_starts d room rest).length_le
  rw [List.length_take] at hle
  omega

/-- `memchr` finds the end of the piece, or nothing if the piece is all that it sees. -/
theorem idxOf_eq_takeWhile (d : UInt8) (l : List UInt8) :
    l.idxOf? d = if (l.takeWhile (· ≠ d)).length < l.length then
      some (l.takeWhile (· ≠ d)).length else none := by
  induction l with
  | nil => rfl
  | cons a l ih =>
    rw [List.idxOf?_cons]
    by_cases ha : a = d
    · simp [ha]
    · have hbeq : (a == d) = false := beq_false_of_ne ha
      have hkeep : (a :: l).takeWhile (· ≠ d) = a :: l.takeWhile (· ≠ d) :=
        List.takeWhile_cons_of_pos (decide_eq_true ha)
      have hlonger : (a :: l.takeWhile (· ≠ d)).length < (a :: l).length ↔
          (l.takeWhile (· ≠ d)).length < l.length := Nat.add_lt_add_iff_right
      rw [hbeq, ih, hkeep]
      by_cases hshort : (l.takeWhile (· ≠ d)).length < l.length
      · rw [if_pos hshort, if_pos (hlonger.mpr hshort)]
        rfl
      · rw [if_neg hshort, if_neg (hshort ∘ hlonger.mp)]
        rfl

theorem drop_of_split {a : UInt8} {l p t : List UInt8} (h : l = p ++ a :: t) :
    l.drop (p.length + 1) = t := by
  rw [h, ← List.drop_drop, List.drop_left]
  rfl

/-- Behind a piece that is cut short by the delimiter. -/
theorem drop_piece (h : (piece d room rest).length < (rest.take room).length) :
    rest = piece d room rest ++ d :: rest.drop ((piece d room rest).length + 1) := by
  have hwhole := List.takeWhile_append_dropWhile (p := (· ≠ d)) (l := rest.take room)
  have hstop := List.head?_dropWhile_not (· ≠ d) (rest.take room)
  cases hbehind : (rest.take room).dropWhile (· ≠ d) with
  | nil =>
    rw [hbehind, List.append_nil] at hwhole
    exact absurd (congrArg List.length hwhole) (Nat.ne_of_lt h)
  | cons a l =>
    rw [hbehind] at hstop hwhole
    obtain rfl : a = d := by simpa using hstop
    have hrest : rest = piece a room rest ++ a :: (l ++ rest.drop room) := by
      conv_lhs => rw [← List.take_append_drop room rest, ← hwhole]
      rw [List.append_assoc]
      rfl
    rw [drop_of_split hrest]
    exact hrest

theorem take_piece (d : UInt8) (room : Nat) (rest : List UInt8) :
    rest.take (piece d room rest).length = piece d room rest :=
  (List.prefix_iff_eq_take.mp ((piece_starts d room rest).trans (List.take_prefix room rest))).symm

theorem piece_cons_of_ne {b : UInt8} (hb : b ≠ d) (room : Nat) (rest : List UInt8) :
    piece d (room + 1) (b :: rest) = b :: piece d room rest :=
  List.takeWhile_cons_of_pos (decide_eq_true hb)

theorem piece_cons_self (d : UInt8) (room : Nat) (rest : List UInt8) :
    piece d (room + 1) (d :: rest) = [] :=
  List.takeWhile_cons_of_neg (by simp)

theorem taken_cons_of_ne {b : UInt8} (hb : b ≠ d) (room : Nat) (rest : List UInt8) :
    taken d (room + 1) (b :: rest) = taken d room rest + 1 := by
  simp only [taken, piece_cons_of_ne hb, List.take_succ_cons, List.length_cons,
    Nat.add_lt_add_iff_right]
  split <;> rfl

theorem taken_cons_self (d : UInt8) (room : Nat) (rest : List UInt8) :
    taken d (room + 1) (d :: rest) = 1 := by
  rw [taken, piece_cons_self]
  exact if_pos (Nat.succ_pos _)

theorem taken_nil (d : UInt8) (room : Nat) : taken d room [] = 0 := by
  rw [taken, piece, List.take_nil]
  rfl

theorem taken_le (d : UInt8) (room : Nat) (rest : List UInt8) :
    taken d room rest ≤ rest.length := by
  have hle := (piece_length_le d room rest).2
  simp only [taken, List.length_take]
  split <;> omega

end Piece

/-! ## String streams -/

section Memchr

variable {ss : StringStream} {c rest buffer : List UInt8} {p : Nat}

@[simp] theorem toByte_toNat (b : UInt8) : toByte (b.toNat : Int) = b := by
  have hlt := b.toNat_lt
  have hmod : ((b.toNat : Int) % 256).toNat = b.toNat := by omega
  rw [toByte, hmod, UInt8.ofNat_toNat]

theorem Carries.load_take (h : Carries ss ⟨c, p⟩) {k : Nat} (hk : k ≤ (c.drop p).length) :
    load ss.data ss.pos k = some ((c.drop p).take k) := by
  obtain ⟨behind, hdata⟩ := h.data
  have hle : p ≤ c.length := h.pos_le
  have hlen := congrArg List.length hdata
  rw [List.length_append, List.length_cons] at hlen
  have hfits : ss.pos + k ≤ ss.data.length := by
    rw [h.pos, hlen]
    rw [List.length_drop] at hk
    change p + k ≤ c.length + _
    omega
  rw [load_eq hfits, h.pos, hdata, List.drop_append_of_le_length hle,
    List.take_append_of_le_length hk]

/-- A piece and its NUL in the buffer. -/
theorem store_piece {l : List UInt8} (h : l.length < buffer.length) :
    ((store buffer 0 l).bind fun buffer => store buffer l.length [0]) =
      some (l ++ 0 :: buffer.drop (l.length + 1)) := by
  have hpiece := store_append (l := []) (Nat.le_of_lt h)
  rw [List.nil_append, List.nil_append, List.length_nil] at hpiece
  have hone : [(0 : UInt8)].length ≤ (buffer.drop l.length).length := by
    rw [List.length_drop, List.length_singleton]
    omega
  have hnul := store_append (l := l) hone
  rw [hpiece, Option.bind_some, hnul, List.drop_drop]
  rfl

theorem toSsize_eq {n : Nat} (h : n < 2 ^ 63) : toSsize n = n := by
  rw [toSsize, Nat.mod_eq_of_lt (by omega), if_pos h]

/-- The path through `memchr`. -/
theorem readUntilString_answer (h : Carries ss ⟨c, p⟩) (d : UInt8) (hroom : 2 ≤ buffer.length)
    (hsize : buffer.length < 2 ^ 63) :
    readUntilString ss d.toNat buffer =
      some ({ ss with pos := p + (answer d (c.drop p) buffer).consumed },
        (answer d (c.drop p) buffer).ret, (answer d (c.drop p) buffer).buffer) := by
  have hposs : ss.pos = p := h.pos
  have hsizes : ss.size = c.length := h.size
  have hfits : c.length < 2 ^ 63 := h.fits
  have hdrop : (c.drop p).length = c.length - p := List.length_drop
  unfold readUntilString answer
  by_cases hend : c.drop p = []
  · have hshort : ss.size ≤ ss.pos := by
      rw [hend, List.length_nil] at hdrop
      omega
    rw [if_pos hshort, if_pos hend, ← hposs]
    rfl
  have hleft : ¬ ss.size ≤ ss.pos := by
    have := List.length_pos_iff.mpr hend
    omega
  rw [if_neg hleft, if_neg hend]
  obtain ⟨room, hroomEq⟩ : ∃ r, r = buffer.length - 1 := ⟨_, rfl⟩
  obtain ⟨rest, hrest⟩ : ∃ l, l = c.drop p := ⟨_, rfl⟩
  rw [← hrest] at hdrop
  have hpiece := piece_length_le d room rest
  have htaken : taken d room rest = if (piece d room rest).length < (rest.take room).length then
    (piece d room rest).length + 1 else (piece d room rest).length := rfl
  -- `memchr` sees the bytes that fit into the buffer
  have hcheck : (if ss.size - ss.pos < room then ss.size - ss.pos else room) =
      (rest.take room).length := by
    rw [List.length_take]
    split <;> omega
  have hcheckLe := (List.take_prefix room rest).length_le
  have hwindow : rest.take (rest.take room).length = rest.take room :=
    (List.prefix_iff_eq_take.mp (List.take_prefix room rest)).symm
  have hload := h.load_take (k := (rest.take room).length) (hrest ▸ hcheckLe)
  have hload' := h.load_take (k := (piece d room rest).length) (hrest ▸ hpiece.2)
  rw [← hrest, hwindow] at hload
  rw [← hrest, take_piece] at hload'
  have hchr : Text.memchr ss.data ss.pos d (rest.take room).length =
      some (if (piece d room rest).length < (rest.take room).length then
        some (piece d room rest).length else none) := by
    rw [Text.memchr, hload, Option.map_some, idxOf_eq_takeWhile]
    rfl
  have hstore := store_piece (l := piece d room rest) (by omega : _ < buffer.length)
  have hret := toSsize_eq (by omega : (piece d room rest).length < 2 ^ 63)
  simp only [← hroomEq, hcheck, toByte_toNat, hchr, Option.bind_eq_bind, Option.bind_some, ← hrest]
  by_cases hshort : (piece d room rest).length < (rest.take room).length
  · have hpos : toSize (ss.pos + ((piece d room rest).length + 1)) =
        p + ((piece d room rest).length + 1) := by
      rw [List.length_take] at hshort
      rw [hposs, toSize_eq (by omega)]
    simp only [if_pos hshort, hload', Option.bind_some, hpos, hret, htaken]
    rw [← Option.bind_assoc, hstore]
    rfl
  · have hsame : (piece d room rest).length = (rest.take room).length :=
      Nat.le_antisymm (piece_starts d room rest).length_le (Nat.le_of_not_lt hshort)
    have hall : rest.take room = piece d room rest :=
      ((piece_starts d room rest).eq_of_length hsame).symm
    have hpos : toSize (ss.pos + (piece d room rest).length) = p + (piece d room rest).length := by
      rw [hposs, toSize_eq (by omega)]
    rw [← hsame] at hload hshort ⊢
    simp only [if_neg hshort, hload, Option.bind_some, hpos, hret, hall, htaken]
    rw [← Option.bind_assoc, hstore]
    rfl

end Memchr

/-! ## Files -/

/-- The file has the content, and is at `p`. -/
structure FileStream.At (fs : FileStream) (c : List UInt8) (p : Nat) : Prop where
  content : fs.content = c
  pos : fs.pos = p
  pos_le : p ≤ c.length
  atEof : fs.atEof = true → p = c.length

section Fgetc

variable {fs : FileStream} {c tail buffer : List UInt8} {p : Nat}

/-- The next character, or the end of the file. -/
theorem FileStream.At.fgetc (h : fs.At c p) :
    (c.drop p = [] ∧ ∃ fs', Streams.fgetc fs = (fs', eof) ∧ fs'.At c p ∧ fs'.atEof = true) ∨
      ∃ b fs', c.drop p = b :: c.drop (p + 1) ∧ Streams.fgetc fs = (fs', (b.toNat : Int)) ∧
        fs'.At c (p + 1) := by
  rcases Nat.lt_or_ge p c.length with hlt | hge
  · right
    have hmore : fs.atEof = false :=
      Bool.eq_false_iff.mpr fun heof => Nat.ne_of_lt hlt (h.atEof heof)
    refine ⟨_, { fs with pos := fs.pos + 1 }, List.drop_eq_getElem_cons hlt, ?_, h.content,
      congrArg (· + 1) h.pos, hlt, fun heof => ?_⟩
    · rw [Streams.fgetc, hmore, h.content, h.pos, if_neg Bool.false_ne_true,
        List.getElem?_eq_getElem hlt]
    · exact absurd (h.atEof heof) (Nat.ne_of_lt hlt)
  · left
    have hend : p = c.length := Nat.le_antisymm h.pos_le hge
    refine ⟨List.drop_of_length_le hge, { fs with atEof := true }, ?_,
      ⟨h.content, h.pos, h.pos_le, fun _ => hend⟩, rfl⟩
    rw [Streams.fgetc, h.content, h.pos, List.getElem?_eq_none hge, ite_self]

/-- The loop reads the piece; behind it it has met the end, the delimiter, or the end of the
buffer. -/
theorem readUntilLoop_piece (d : UInt8) {room : Nat} (out : List UInt8) {ch : Int}
    (h : fs.At c p) (hroom : room ≤ tail.length) (hch : ch ≠ eof) :
    ∃ fs' ch', readUntilLoop d.toNat room fs (out ++ tail) out.length ch =
        some (fs', out ++ (piece d room (c.drop p) ++ tail.drop (piece d room (c.drop p)).length),
          out.length + (piece d room (c.drop p)).length, ch') ∧
      fs'.At c (p + taken d room (c.drop p)) ∧
      (ch' = eof ↔ (piece d room (c.drop p)).length = (c.drop p).length ∧
        (piece d room (c.drop p)).length < room) ∧
      (ch' = eof → fs'.atEof = true) := by
  induction room generalizing fs p out tail ch with
  | zero => exact ⟨fs, ch, rfl, h, iff_of_false hch (by simp), fun heof => absurd heof hch⟩
  | succ room ih =>
    have hbyte : ∀ b : UInt8, (b.toNat : Int) ≠ eof := by
      intro b hb
      unfold eof at hb
      omega
    rcases h.fgetc with ⟨hnil, fs', hget, h', heof⟩ | ⟨b, fs', hcons, hget, h'⟩
    · rw [hnil]
      refine ⟨fs', eof, ?_, h', iff_of_true rfl ⟨rfl, Nat.succ_pos room⟩, fun _ => heof⟩
      rw [readUntilLoop, hget]
      exact if_pos (.inl rfl)
    · rw [hcons]
      by_cases hb : b = d
      · -- the delimiter is consumed
        subst hb
        rw [piece_cons_self, taken_cons_self]
        refine ⟨fs', b.toNat, ?_, h', iff_of_false (hbyte b) (by simp), fun he =>
          absurd he (hbyte b)⟩
        rw [readUntilLoop, hget]
        exact if_pos (.inr rfl)
      · have hne : ¬ ((b.toNat : Int) = eof ∨ (b.toNat : Int) = d.toNat) := by
          rw [not_or]
          exact ⟨hbyte b, fun he => hb (UInt8.toNat_inj.mp (Int.ofNat.inj he))⟩
        obtain ⟨x, tail', rfl⟩ := List.exists_cons_of_length_pos
          (Nat.lt_of_lt_of_le (Nat.succ_pos room) hroom)
        have hone : [b].length ≤ (x :: tail').length := by simp
        have hstore := store_append (l := out) hone
        rw [← List.append_assoc, List.length_singleton, List.drop_succ_cons, List.drop_zero]
          at hstore
        obtain ⟨fs'', ch', hrun, h'', hiff, heof⟩ := ih (out ++ [b]) h'
          (Nat.le_of_succ_le_succ hroom) (hbyte b)
        rw [piece_cons_of_ne hb]
        refine ⟨fs'', ch', ?_, ?_, ?_, heof⟩
        · rw [List.length_append, List.length_singleton, Nat.add_right_comm out.length 1] at hrun
          simp only [List.append_assoc, List.singleton_append] at hrun
          rw [readUntilLoop, hget]
          simp only [if_neg hne, toByte_toNat, hstore, Option.bind_eq_bind, Option.bind_some,
            List.append_assoc, List.cons_append, List.nil_append, List.length_cons,
            List.drop_succ_cons]
          exact hrun
        · rw [taken_cons_of_ne hb, ← Nat.add_assoc, Nat.add_right_comm]
          exact h''
        · simp only [List.length_cons, Nat.add_lt_add_iff_right, Nat.add_right_cancel_iff]
          exact hiff

/-- The path through `fgetc`. -/
theorem readUntilFile_answer (h : fs.At c p) (d : UInt8) (hroom : 2 ≤ buffer.length)
    (hsize : buffer.length < 2 ^ 63) :
    ∃ fs', readUntilFile fs d.toNat buffer = some (fs', (answer d (c.drop p) buffer).ret,
        (answer d (c.drop p) buffer).buffer) ∧
      fs'.At c (p + (answer d (c.drop p) buffer).consumed) := by
  obtain ⟨fs', ch, hrun, h', hiff, heof⟩ := readUntilLoop_piece d [] h
    (Nat.sub_le buffer.length 1) (by decide : (0 : Int) ≠ eof)
  have hlimit : (toSsize (buffer.length - 1)).toNat = buffer.length - 1 := by
    rw [toSsize_eq (by omega), Int.toNat_natCast]
  rw [List.nil_append, List.nil_append, List.length_nil, Nat.zero_add] at hrun
  unfold readUntilFile answer
  rw [hlimit, hrun]
  simp only [Option.bind_eq_bind, Option.bind_some]
  by_cases hend : c.drop p = []
  · -- the first character is missing
    have hpiece : piece d (buffer.length - 1) (c.drop p) = [] := by
      rw [hend, piece, List.take_nil, List.takeWhile_nil]
    have hch : ch = eof := hiff.mpr (by rw [hpiece, hend, List.length_nil]; omega)
    rw [hend, taken_nil] at h'
    refine ⟨fs', ?_, by rw [if_pos hend]; exact h'⟩
    rw [if_pos hend, if_pos ⟨hch, heof hch, by rw [hpiece, List.length_nil]⟩, hpiece]
    rfl
  · have hgo : ¬ (ch = eof ∧ fs'.atEof = true ∧
        (piece d (buffer.length - 1) (c.drop p)).length = 0) := by
      rintro ⟨hch, -, hzero⟩
      have hall := (hiff.mp hch).1
      rw [hzero] at hall
      exact hend (List.length_eq_zero_iff.mp hall.symm)
    have hlt : (piece d (buffer.length - 1) (c.drop p)).length < buffer.length := by
      have := (piece_length_le d (buffer.length - 1) (c.drop p)).1
      omega
    have hstore := store_piece hlt
    have hpiece := store_append (l := []) (Nat.le_of_lt hlt)
    rw [List.nil_append, List.nil_append, List.length_nil] at hpiece
    rw [hpiece, Option.bind_some] at hstore
    refine ⟨fs', ?_, by rw [if_neg hend]; exact h'⟩
    rw [if_neg hgo, if_neg hend, hstore]
    rfl

end Fgetc

/-! ## Runs -/

/-- The stream has the content, and is at `p`. -/
def Stream.Offers (c : List UInt8) (p : Nat) : Stream → Prop
  | .string ss => Carries ss ⟨c, p⟩
  | .file fs => fs.At c p

section Run

variable {s : Stream} {c : List UInt8} {p : Nat}

theorem Stream.Offers.pos_eq (h : s.Offers c p) : s.pos = p ∧ p ≤ c.length := by
  cases s with
  | string ss => exact ⟨h.pos, h.pos_le⟩
  | file fs => exact ⟨h.pos, h.pos_le⟩

/-- One call, on either type. -/
theorem readUntil_answer (h : s.Offers c p) (d : UInt8) {buffer : List UInt8}
    (hroom : 2 ≤ buffer.length) (hsize : buffer.length < 2 ^ 63) :
    ∃ s', readUntil d.toNat buffer s = some (s', (answer d (c.drop p) buffer).ret,
        (answer d (c.drop p) buffer).buffer) ∧
      s'.Offers c (p + (answer d (c.drop p) buffer).consumed) := by
  cases s with
  | string ss =>
    have h : Carries ss ⟨c, p⟩ := h
    have hend : p + (answer d (c.drop p) buffer).consumed ≤ c.length := by
      have hle := taken_le d (buffer.length - 1) (c.drop p)
      have hpos : p ≤ c.length := h.pos_le
      rw [List.length_drop] at hle
      unfold answer
      split
      · exact hpos
      · dsimp only
        omega
    refine ⟨.string { ss with pos := p + (answer d (c.drop p) buffer).consumed }, ?_,
      h.setPos hend⟩
    rw [readUntil, readUntilString_answer h d hroom hsize]
    rfl
  | file fs =>
    obtain ⟨fs', hread, h'⟩ := readUntilFile_answer h d hroom hsize
    refine ⟨.file fs', ?_, h'⟩
    rw [readUntil, hread]
    rfl

/-- One call after the other. -/
theorem readAll_answers (h : s.Offers c p) (d : UInt8) {buffers : List (List UInt8)}
    (hbuffers : ∀ b ∈ buffers, 2 ≤ b.length ∧ b.length < 2 ^ 63) :
    ∃ s' q, readAll d.toNat buffers s = some (s', answers d buffers (c.drop p)) ∧
      s'.Offers c q ∧
      ((answers d buffers (c.drop p)).map (·.consumed)).sum = q - p ∧ p ≤ q := by
  induction buffers generalizing s p with
  | nil => exact ⟨s, p, rfl, h, (Nat.sub_self p).symm, Nat.le_refl p⟩
  | cons buffer buffers ih =>
    obtain ⟨hroom, hsize⟩ := hbuffers buffer List.mem_cons_self
    obtain ⟨s', hread, h'⟩ := readUntil_answer h d hroom hsize
    obtain ⟨s'', q, hrun, h'', hsum, hle⟩ :=
      ih h' fun b hb => hbuffers b (List.mem_cons_of_mem buffer hb)
    have hmoved : s'.pos - s.pos = (answer d (c.drop p) buffer).consumed := by
      rw [h'.pos_eq.1, h.pos_eq.1, Nat.add_sub_cancel_left]
    refine ⟨s'', q, ?_, h'', ?_, by omega⟩
    · rw [readAll, hread]
      simp only [Option.bind_eq_bind, Option.bind_some, hrun, hmoved, answers, List.drop_drop]
    · rw [answers, List.map_cons, List.sum_cons, List.drop_drop, hsum]
      omega

end Run

theorem ReadCall.text_mk (d : UInt8) (l tail : List UInt8) (n : Nat) :
    (⟨l.length, l ++ 0 :: tail, n⟩ : ReadCall).text d = l ++ if l.length < n then [d] else [] := by
  change (l ++ 0 :: tail).take (l.length : Int).toNat ++
    (if (l.length : Int).toNat < n then [d] else []) = _
  rw [Int.toNat_natCast, List.take_left]

/-- A call has the bytes that it consumes. -/
theorem text_answer (d : UInt8) (rest buffer : List UInt8) :
    (answer d rest buffer).text d = rest.take (answer d rest buffer).consumed := by
  rw [answer]
  by_cases hend : rest = []
  · rw [if_pos hend, hend]
    rfl
  · rw [if_neg hend]
    dsimp only
    rw [ReadCall.text_mk, taken]
    by_cases hshort : (piece d (buffer.length - 1) rest).length <
        (rest.take (buffer.length - 1)).length
    · have hlen : (piece d (buffer.length - 1) rest ++ [d]).length =
          (piece d (buffer.length - 1) rest).length + 1 := by simp
      rw [if_pos hshort, if_pos (Nat.lt_succ_self _), ← hlen]
      refine List.prefix_iff_eq_take.mp ⟨rest.drop ((piece d (buffer.length - 1) rest).length + 1),
        ?_⟩
      rw [List.append_assoc]
      exact (drop_piece hshort).symm
    · rw [if_neg hshort, if_neg (Nat.lt_irrefl _), List.append_nil, take_piece]

/-- The pieces with their delimiters, and what is left. -/
theorem flatten_answers (d : UInt8) (buffers : List (List UInt8)) (rest : List UInt8) :
    ((answers d buffers rest).map (·.text d)).flatten =
      rest.take ((answers d buffers rest).map (·.consumed)).sum := by
  induction buffers generalizing rest with
  | nil => rfl
  | cons buffer buffers ih =>
    rw [answers, List.map_cons, List.flatten_cons, List.map_cons, List.sum_cons, ih, text_answer,
      List.take_add]

/-- A call that is not at the end consumes something. -/
theorem consumed_pos {d : UInt8} {rest buffer : List UInt8} (hrest : rest ≠ [])
    (hroom : 2 ≤ buffer.length) : 0 < (answer d rest buffer).consumed := by
  have hpos := List.length_pos_iff.mpr hrest
  rw [answer, if_neg hrest]
  simp only [taken, List.length_take]
  split <;> omega

/-- With as many calls as there are bytes left, and one more, the end is met. -/
theorem exists_end {d : UInt8} {buffers : List (List UInt8)} {rest : List UInt8}
    (hbuffers : ∀ b ∈ buffers, 2 ≤ b.length) (hmany : rest.length < buffers.length) :
    ∃ call ∈ answers d buffers rest, call.ret = -1 := by
  induction buffers generalizing rest with
  | nil => exact absurd hmany (Nat.not_lt_zero _)
  | cons buffer buffers ih =>
    by_cases hrest : rest = []
    · exact ⟨_, List.mem_cons_self, by rw [answer, if_pos hrest]⟩
    · have hlen := List.length_pos_iff.mpr hrest
      have hpos := consumed_pos (d := d) hrest (hbuffers buffer List.mem_cons_self)
      obtain ⟨call, hmem, hret⟩ := @ih (rest.drop (answer d rest buffer).consumed)
        (fun b hb => hbuffers b (List.mem_cons_of_mem buffer hb))
        (by
          rw [List.length_cons] at hmany
          rw [List.length_drop]
          omega)
      exact ⟨call, List.mem_cons_of_mem _ hmem, hret⟩

/-- A call returns -1 only where nothing is left. -/
theorem all_consumed {d : UInt8} {buffers : List (List UInt8)} {rest : List UInt8}
    (hend : ∃ call ∈ answers d buffers rest, call.ret = -1) :
    rest.length ≤ ((answers d buffers rest).map (·.consumed)).sum := by
  induction buffers generalizing rest with
  | nil =>
    obtain ⟨call, hmem, -⟩ := hend
    exact absurd hmem List.not_mem_nil
  | cons buffer buffers ih =>
    obtain ⟨call, hmem, hret⟩ := hend
    rw [answers, List.map_cons, List.sum_cons]
    rcases List.mem_cons.mp hmem with rfl | hmem
    · by_cases hrest : rest = []
      · rw [hrest]
        exact Nat.zero_le _
      · rw [answer, if_neg hrest] at hret
        have hneg : ((piece d (buffer.length - 1) rest).length : Int) = -1 := hret
        omega
    · have := ih ⟨call, hmem, hret⟩
      rw [List.length_drop] at this
      omega

/-- A string stream and a file with the same content answer any sequence of calls in the same way,
and consume the same bytes; the pieces with the consumed delimiters behind them are the content up
to the place where the streams are then. That is the end once a call returns -1, and one does when
there are more calls than bytes. -/
theorem read_until_paths_agree {ss : StringStream} {c : List UInt8} (hs : Carries ss ⟨c, 0⟩)
    (d : UInt8) {buffers : List (List UInt8)}
    (hbuffers : ∀ b ∈ buffers, 2 ≤ b.length ∧ b.length < 2 ^ 63) :
    ∃ s f calls, readAll d.toNat buffers (.string ss) = some (s, calls) ∧
      readAll d.toNat buffers (.file ⟨c, 0, false⟩) = some (f, calls) ∧
      (calls.map (·.text d)).flatten = c.take s.pos ∧ f.pos = s.pos ∧
      ((∃ call ∈ calls, call.ret = -1) → (calls.map (·.text d)).flatten = c) ∧
      (c.length < buffers.length → ∃ call ∈ calls, call.ret = -1) := by
  have hf : (Stream.file ⟨c, 0, false⟩).Offers c 0 := ⟨rfl, rfl, Nat.zero_le _, nofun⟩
  obtain ⟨s, q, hrun, hoff, hsum, -⟩ :=
    readAll_answers (s := .string ss) hs d hbuffers
  obtain ⟨f, q', hrun', hoff', hsum', -⟩ := readAll_answers hf d hbuffers
  have htext := flatten_answers d buffers (c.drop 0)
  refine ⟨s, f, answers d buffers (c.drop 0), hrun, hrun', ?_, ?_, ?_, ?_⟩
  · rw [htext, hsum, hoff.pos_eq.1]
    rfl
  · rw [hoff.pos_eq.1, hoff'.pos_eq.1]
    omega
  · intro hend
    rw [htext]
    exact List.take_of_length_le (all_consumed hend)
  · intro hmany
    exact exists_end (fun b hb => (hbuffers b hb).1) hmany

/-- The first bytes of `a,,b` through a buffer of 3 bytes: two calls, and the delimiter of each. -/
theorem read_until_paths_agree_commas :
    ∃ s f calls, readAll 44 [[9, 9, 9], [9, 9, 9]] (.string ⟨[97, 44, 44, 98, 0], 4, 5, 0⟩) =
        some (s, calls) ∧
      readAll 44 [[9, 9, 9], [9, 9, 9]] (.file ⟨[97, 44, 44, 98], 0, false⟩) = some (f, calls) ∧
      (calls.map (·.text 44)).flatten = [97, 44, 44, 98].take s.pos ∧ f.pos = s.pos := by
  have hs : Carries ⟨[97, 44, 44, 98, 0], 4, 5, 0⟩ ⟨[97, 44, 44, 98], 0⟩ :=
    ⟨rfl, rfl, by decide, ⟨[], rfl⟩, rfl, by decide⟩
  obtain ⟨s, f, calls, hs', hf, htext, hpos, -⟩ :=
    read_until_paths_agree hs 44 (by decide : ∀ b ∈ [[9, 9, 9], [9, 9, (9 : UInt8)]],
      2 ≤ b.length ∧ b.length < 2 ^ 63)
  exact ⟨s, f, calls, hs', hf, htext, hpos⟩

end Solidc.Streams
