import Solidc.Lib.Buffer
import Solidc.Lib.CString
import Solidc.Lib.Transition
import Mathlib.Algebra.Ring.Nat
import Mathlib.Algebra.Ring.Int.Defs

/-! # String streams

`string_stream` as the source keeps it: a block of bytes, the size of the text in it, the size of
the block and the cursor. Sums of sizes wrap around as those of `size_t` do, and an access outside
of the block has no value. Every allocation may fail. Negating the smallest `long` gives itself.

* `stringStreamEnsureCapacity` — growth by doubling;
* `stringWriteImpl`, `stringStreamWriteLen` — the two kinds of write, at the cursor and at the end;
* `stringSeekImpl`, `stringStreamCopyFast`;
* `stringStreams` — any number of streams, and every call on them.
-/

namespace Solidc.Streams

open CLib

/-- The value of an expression of type `size_t`. -/
def toSize (n : Nat) : Nat := n % 2 ^ 64

/-- `(int)n`. -/
def toInt (n : Nat) : Int :=
  if n % 2 ^ 32 < 2 ^ 31 then (n % 2 ^ 32 : Nat) else (n % 2 ^ 32 : Nat) - 2 ^ 32

/-- `(ssize_t)n`. -/
def toSsize (n : Nat) : Int :=
  if n % 2 ^ 64 < 2 ^ 63 then (n % 2 ^ 64 : Nat) else (n % 2 ^ 64 : Nat) - 2 ^ 64

/-- `(size_t)z`. -/
def sizeOfInt (z : Int) : Nat := (z % 2 ^ 64).toNat

def eof : Int := -1

/-- `string_stream`, with the bytes that `data` leads to. -/
structure StringStream where
  data : List UInt8
  size : Nat
  capacity : Nat
  pos : Nat
  deriving DecidableEq

/-- What `malloc` or `realloc` returns: NULL, or a block with some bytes behind those that it
keeps. -/
abbrev Alloc : Type := Option (Nat → UInt8)

/-! ## Capacity -/

/-- The loop of `string_stream_ensure_capacity`. A capacity that has been doubled 64 times is 0,
and the loop does not end. -/
def growLoop : Nat → Nat → Nat → Option Nat
  | 0, newCap, needed => if newCap < needed then none else some newCap
  | fuel + 1, newCap, needed =>
    if newCap < needed then growLoop fuel (toSize (newCap * 2)) needed else some newCap

/-- `string_stream_ensure_capacity`. -/
def stringStreamEnsureCapacity (ss : StringStream) (needed : Nat) (mem : Alloc) :
    Option (StringStream × Bool) :=
  if needed ≤ ss.capacity then some (ss, true)
  else
    -- a capacity of 0 grows from 64
    (growLoop 64 (if ss.capacity = 0 then 64 else ss.capacity) needed).map fun newCap =>
      match mem with
      | none => (ss, false)
      | some junk => ({ ss with data := realloc ss.data newCap junk, capacity := newCap }, true)

/-! ## Calls on one stream -/

/-- `string_read_impl`: the bytes that it copies to `ptr`. -/
def stringReadImpl (ss : StringStream) (n : Nat) : Option (StringStream × List UInt8) :=
  if ss.size ≤ ss.pos then some (ss, [])
  else
    let n := if ss.size - ss.pos < n then ss.size - ss.pos else n
    (load ss.data ss.pos n).map fun bytes => ({ ss with pos := toSize (ss.pos + n) }, bytes)

/-- `string_write_impl` on the bytes that `ptr` leads to. -/
def stringWriteImpl (ss : StringStream) (bytes : List UInt8) (mem : Alloc) :
    Option (StringStream × Int) := do
  let n := bytes.length
  let (ss, ok) ← stringStreamEnsureCapacity ss (toSize (ss.pos + n + 1)) mem
  if ok then
    let data ← store ss.data ss.pos bytes
    let pos := toSize (ss.pos + n)
    let size := if ss.size < pos then pos else ss.size
    let data ← store data size [0]
    some ({ ss with data := data, pos := pos, size := size }, toSsize n)
  else some (ss, -1)

/-- `string_read_char_impl`. -/
def stringReadCharImpl (ss : StringStream) : Option (StringStream × Int) :=
  if ss.size ≤ ss.pos then some (ss, eof)
  else (ss.data[ss.pos]?).map fun b => ({ ss with pos := toSize (ss.pos + 1) }, b.toNat)

/-- The new cursor in `string_seek_impl`. -/
def seekTarget (ss : StringStream) (offset whence : Int) : Option Nat :=
  if whence = 0 then
    if offset < 0 ∨ ss.size < sizeOfInt offset then none else some (sizeOfInt offset)
  else if whence = 1 then
    if offset < 0 ∧ ss.pos < sizeOfInt (-offset) then none
    -- the sum is a `size_t` and may wrap
    else if 0 < offset ∧ ss.size < toSize (ss.pos + sizeOfInt offset) then none
    else some (sizeOfInt (toSsize ss.pos + offset))
  else if whence = 2 then
    if 0 < offset ∨ ss.size < sizeOfInt (-offset) then none
    else some (sizeOfInt (toSsize ss.size + offset))
  else none

/-- `string_seek_impl`. -/
def stringSeekImpl (ss : StringStream) (offset whence : Int) : StringStream × Int :=
  match seekTarget ss offset whence with
  | none => (ss, -1)
  | some newPos => ({ ss with pos := newPos }, 0)

/-- `string_stream_write_len` on the first `n` bytes of `str`. -/
def stringStreamWriteLen (ss : StringStream) (bytes : List UInt8) (mem : Alloc) :
    Option (StringStream × Int) := do
  let n := bytes.length
  let (ss, ok) ← stringStreamEnsureCapacity ss (toSize (ss.size + n + 1)) mem
  if ok then
    let data ← store ss.data ss.size bytes
    let size := toSize (ss.size + n)
    let data ← store data size [0]
    some ({ ss with data := data, size := size }, toInt n)
  else some (ss, -1)

/-- `string_stream_write`: the same with `strlen(str)` for `n`. -/
def stringStreamWrite (ss : StringStream) (str : CString) (mem : Alloc) :
    Option (StringStream × Int) :=
  stringStreamWriteLen ss (str.mem.take str.len) mem

/-- `create_string_stream`; the first allocation is the one of the two structures. -/
def createStringStream (initialCapacity : Nat) (memStream : Bool) (mem : Alloc) :
    Option StringStream :=
  let cap := if 0 < initialCapacity then initialCapacity else 1
  if memStream then
    mem.bind fun junk => (store (extent junk cap) 0 [0]).map fun data => ⟨data, 0, cap, 0⟩
  else none

/-! ## Streams -/

/-- `string_stream_copy_fast`. The two handles may lead to the same stream. -/
def stringStreamCopyFast (streams : List StringStream) (dst src : Nat) (mem : Alloc) :
    Option (List StringStream × Int) := do
  let s ← streams[src]?
  let d ← streams[dst]?
  if s.size ≤ s.pos then some (streams, 0)
  else
    let n := s.size - s.pos
    let (d, ok) ← stringStreamEnsureCapacity d (toSize (d.pos + n + 1)) mem
    let streams := streams.set dst d
    if ok then
      -- `src` is read after `dst` was written: the two may be one stream
      let s ← streams[src]?
      let bytes ← load s.data s.pos n
      let data ← store d.data d.pos bytes
      let size := if d.size < toSize (d.pos + n) then toSize (d.pos + n) else d.size
      let data ← store data size [0]
      let streams := streams.set dst { d with data := data, size := size, pos := toSize (d.pos + n) }
      let s ← streams[src]?
      some (streams.set src { s with pos := toSize (s.pos + n) }, n)
    else some (streams, 2 ^ 64 - 1)

/-- A call. Streams are numbered in the order in which they were created. -/
inductive StreamOp where
  | create (initialCapacity : Nat) (memStream : Bool) (mem : Alloc)
  | read (i n : Nat)
  | readChar (i : Nat)
  | write (i : Nat) (bytes : List UInt8) (mem : Alloc)
  | writeString (i : Nat) (str : CString) (mem : Alloc)
  | writeLen (i : Nat) (bytes : List UInt8) (mem : Alloc)
  | seek (i : Nat) (offset whence : Int)
  | copy (dst src : Nat) (mem : Alloc)

/-- What a call returns, and the bytes that it has read. -/
structure StreamResult where
  code : Int
  bytes : List UInt8
  deriving DecidableEq

/-- A call on stream `i`. -/
def onStream (streams : List StringStream) (i : Nat)
    (call : StringStream → Option (StringStream × Int)) :
    Option (List StringStream × StreamResult) := do
  let ss ← streams[i]?
  let (ss, code) ← call ss
  some (streams.set i ss, ⟨code, []⟩)

/-- One call. `create` returns -1 for NULL. -/
def perform (streams : List StringStream) : StreamOp → Option (List StringStream × StreamResult)
  | .create initialCapacity memStream mem =>
    match createStringStream initialCapacity memStream mem with
    | none => some (streams, ⟨-1, []⟩)
    | some ss => some (streams ++ [ss], ⟨streams.length, []⟩)
  | .read i n => do
    let ss ← streams[i]?
    let (ss, bytes) ← stringReadImpl ss n
    some (streams.set i ss, ⟨toSsize bytes.length, bytes⟩)
  | .readChar i => onStream streams i stringReadCharImpl
  | .write i bytes mem => onStream streams i (stringWriteImpl · bytes mem)
  | .writeString i str mem => onStream streams i (stringStreamWrite · str mem)
  | .writeLen i bytes mem => onStream streams i (stringStreamWriteLen · bytes mem)
  | .seek i offset whence => onStream streams i fun ss => some (stringSeekImpl ss offset whence)
  | .copy dst src mem =>
    (stringStreamCopyFast streams dst src mem).map fun (streams, code) => (streams, ⟨code, []⟩)

/-- String streams, and the calls on them. -/
def stringStreams : System (List StringStream) StreamOp where
  init s := s = []
  step s op s' := ∃ r, perform s op = some (s', r)

end Solidc.Streams
