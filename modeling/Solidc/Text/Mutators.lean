import Solidc.Lib.Transition
import Solidc.Text.Cstr

/-! # Mutators of strings

The functions that create and change a `cstr`. Strings are numbered in the order of their
creation; a call changes one of them and may read another one.

* `CstrCall.perform` — one call on a string;
* `perform_gives` — it holds afterwards what the call's name says, or the same as before;
* `cstr_mutators` — so it is in every run, and every string keeps its NUL inside the block that
  its flag and its capacity describe.
-/

namespace Solidc.Text

open CLib

/-! ## The code -/

/-- `CSTR_MAX_SIZE`. -/
def cstrMaxSize : Nat := cstrMaxLen

/-- `cstr_init`; `struct` is what `malloc` returns for the `cstr` itself. -/
def cstrInit (initialCapacity : Nat) (struct alloc : Alloc) : Option (Option Cstr) :=
  if initialCapacity ≥ cstrMaxSize then some none
  else
    match struct with
    | none => some none
    | some buf =>
      let s := cstrInitInplace buf
      if initialCapacity ≥ cstrSsoCap then do
        let (s, ok) ← cstrEnsureCap s (initialCapacity + 1) alloc
        some (if ok then some s else none)
      else some (some s)

/-- `cstr_new_len`, with NULL or a pointer to `length` bytes. -/
def cstrNewLen (data : Option (Nat → UInt8)) (length : Nat) (struct alloc : Alloc) :
    Option (Option Cstr) :=
  if data = none ∧ length > 0 then some none
  else
    match struct with
    | none => some none
    | some buf =>
      let s := cstrInitInplace buf
      if length > 0 then do
        let (s, ok) ← cstrEnsureCap s (toSize (length + 1)) alloc
        if ok then
          let s ← s.write 0 (extent (← data) length)
          let s ← s.write length [0]
          some (some { s with length := toU32 length })
        else some none
      else some (some s)

/-- `cstr_shrink_to_fit`. -/
def cstrShrinkToFit (s : Cstr) (alloc : Alloc) : Option Cstr :=
  if cstrIsHeap s = false then some s
  else
    let needed := toU32 (s.length + 1)
    if cstrHeapCap s = needed then some s
    else
      match alloc with
      | none => some s
      | some junk => do
        let block ← s.data
        some { s with
          data := some (realloc block needed junk)
          capacity := cstrHeapFlag ||| needed }

def cstrAppend (s : Cstr) (text : CText) (alloc : Alloc) : Option (Cstr × Bool) :=
  let n := text.len
  if n = 0 then some (s, true)
  else
    let newLen := toSize (s.length + n)
    if newLen > cstrMaxSize then some (s, false)
    else withRoom s (toSize (newLen + 1)) alloc fun s => do
      let s ← s.write s.length (text.bytes ++ [0])
      some { s with length := toU32 newLen }

def cstrAppendCstr (s append : Cstr) (alloc : Alloc) : Option (Cstr × Bool) :=
  let n := append.length
  if n = 0 then some (s, true)
  else
    let newLen := toU32 (s.length + n)
    if newLen < s.length then some (s, false)
    else withRoom s (newLen + 1) alloc fun s => do
      let bytes ← load append.mem 0 (n + 1)
      let s ← s.write s.length bytes
      some { s with length := newLen }

def cstrNcat (dest src : Cstr) (n : Nat) (alloc : Alloc) : Option (Cstr × Bool) :=
  let copyN := if n < src.length then toU32 n else src.length
  if copyN = 0 then some (dest, true)
  else
    let newLen := toU32 (dest.length + copyN)
    if newLen < dest.length then some (dest, false)
    else withRoom dest (newLen + 1) alloc fun dest => do
      let bytes ← load src.mem 0 copyN
      let dest ← dest.write dest.length bytes
      let dest ← dest.write newLen [0]
      some { dest with length := newLen }

def cstrAppendChar (s : Cstr) (c : UInt8) (alloc : Alloc) : Option (Cstr × Bool) :=
  let newLen := toU32 (s.length + 1)
  withRoom s (newLen + 1) alloc fun s => do
    let s ← s.write s.length [c]
    let s ← s.write newLen [0]
    some { s with length := newLen }

/-- The end of the insertions: `bytes` at `index`, the rest behind it with its NUL. -/
def cstrSplice (index : Nat) (bytes : List UInt8) (newLen : Nat) (s : Cstr) : Option Cstr := do
  let s ← s.move (index + bytes.length) index (s.length - index + 1)
  let s ← s.write index bytes
  some { s with length := newLen }

def cstrInsert (s : Cstr) (index : Nat) (text : CText) (alloc : Alloc) : Option (Cstr × Bool) :=
  if index > s.length then some (s, false)
  else
    let n := text.len
    if n = 0 then some (s, true)
    else
      let newLen := toSize (s.length + n)
      if newLen > cstrMaxSize then some (s, false)
      else withRoom s (toSize (newLen + 1)) alloc (cstrSplice index text.bytes (toU32 newLen))

def cstrInsertCstr (s : Cstr) (index : Nat) (insert : Cstr) (alloc : Alloc) :
    Option (Cstr × Bool) :=
  if index > s.length then some (s, false)
  else
    let n := insert.length
    if n = 0 then some (s, true)
    else
      let newLen := toU32 (s.length + n)
      if newLen < s.length then some (s, false)
      else withRoom s (newLen + 1) alloc fun s => do
        cstrSplice index (← load insert.mem 0 n) newLen s

/-- `cstr_prepend`, whose `memmove` of `length + 1` bytes starts at 0. -/
def cstrPrepend (s : Cstr) (text : CText) (alloc : Alloc) : Option (Cstr × Bool) :=
  let n := text.len
  if n = 0 then some (s, true)
  else
    let newLen := toSize (s.length + n)
    if newLen > cstrMaxSize then some (s, false)
    else withRoom s (toSize (newLen + 1)) alloc (cstrSplice 0 text.bytes (toU32 newLen))

def cstrPrependCstr (s prepend : Cstr) (alloc : Alloc) : Option (Cstr × Bool) :=
  let n := prepend.length
  if n = 0 then some (s, true)
  else
    let newLen := toU32 (s.length + n)
    if newLen < s.length then some (s, false)
    else withRoom s (newLen + 1) alloc fun s => do
      cstrSplice 0 (← load prepend.mem 0 n) newLen s

def cstrRemove (s : Cstr) (index count : Nat) : Option (Cstr × Bool) :=
  let len := s.length
  if index > len then some (s, decide (index = len ∧ count = 0))
  else
    let idx := toU32 index
    let cnt := if count > len - idx then len - idx else toU32 count
    if cnt = 0 then some (s, true)
    else do
      let s ← s.move idx (idx + cnt) (len - idx - cnt + 1)
      some ({ s with length := len - cnt }, true)

def cstrRemoveSubstr (s : Cstr) (start slen : Nat) : Option Cstr :=
  let len := s.length
  if start ≥ len ∨ slen = 0 then some s
  else
    let slen := if slen > len - start then len - start else slen
    let tail := len - start - slen
    if tail > 0 then do
      let s ← s.move start (start + slen) (tail + 1)
      some { s with length := len - toU32 slen }
    else do
      let s ← s.write start [0]
      some { s with length := len - toU32 slen }

/-- `cstr_copy` from another string. -/
def cstrCopy (dest src : Cstr) (alloc : Alloc) : Option (Cstr × Bool) :=
  withRoom dest (src.length + 1) alloc fun dest => do
    let dest ← dest.write 0 (← load src.mem 0 (src.length + 1))
    some { dest with length := src.length }

/-! ## Runs -/

/-- A call on a string. Other strings are given by their number. -/
inductive CstrCall where
  | append (text : CText)
  | appendCstr (other : Nat)
  | ncat (other : Nat) (n : Nat)
  | appendChar (c : UInt8)
  | prepend (text : CText)
  | prependCstr (other : Nat)
  | insert (index : Nat) (text : CText)
  | insertCstr (index : Nat) (other : Nat)
  | remove (index count : Nat)
  | removeSubstr (start slen : Nat)
  | copy (other : Nat)
  | shrinkToFit

/-- The other string that a call reads. -/
def CstrCall.other : CstrCall → Option Nat
  | .appendCstr j | .ncat j _ | .prependCstr j | .insertCstr _ j | .copy j => some j
  | _ => none

/-- One call on `s`, with `other` for the string that it reads; the boolean is what it returns
(true for those that return nothing). -/
def CstrCall.perform (s other : Cstr) (alloc : Alloc) : CstrCall → Option (Cstr × Bool)
  | .append text => cstrAppend s text alloc
  | .appendCstr _ => cstrAppendCstr s other alloc
  | .ncat _ n => cstrNcat s other n alloc
  | .appendChar c => cstrAppendChar s c alloc
  | .prepend text => cstrPrepend s text alloc
  | .prependCstr _ => cstrPrependCstr s other alloc
  | .insert index text => cstrInsert s index text alloc
  | .insertCstr index _ => cstrInsertCstr s index other alloc
  | .remove index count => cstrRemove s index count
  | .removeSubstr start slen => (cstrRemoveSubstr s start slen).map (·, true)
  | .copy _ => cstrCopy s other alloc
  | .shrinkToFit => (cstrShrinkToFit s alloc).map (·, true)

/-- What a call that returns true makes of the content `xs`, with `ys` for that of the other
string. -/
def CstrCall.effect (xs ys : List UInt8) : CstrCall → List UInt8
  | .append text => xs ++ text.bytes
  | .appendCstr _ => xs ++ ys
  | .ncat _ n => xs ++ ys.take n
  | .appendChar c => xs ++ [c]
  | .prepend text => text.bytes ++ xs
  | .prependCstr _ => ys ++ xs
  | .insert index text => xs.take index ++ text.bytes ++ xs.drop index
  | .insertCstr index _ => xs.take index ++ ys ++ xs.drop index
  | .remove index count => xs.take index ++ xs.drop (index + min count (xs.length - index))
  | .removeSubstr start slen => xs.take start ++ xs.drop (start + min slen (xs.length - start))
  | .copy _ => ys
  | .shrinkToFit => xs

/-- What an operation creates or changes. -/
inductive CstrOp where
  | init (initialCapacity : Nat) (struct alloc : Alloc)
  /-- `cstr_new_len` with NULL or an object of `length` bytes. -/
  | newLen (data : Option (Nat → UInt8)) (length : Fin (2 ^ 63)) (struct alloc : Alloc)
  | call (target : Nat) (f : CstrCall) (alloc : Alloc)

/-- A call is on a string that exists and reads another one. -/
def CstrOp.Enabled (cs : List Cstr) : CstrOp → Prop
  | .call target f _ => target < cs.length ∧ ∀ j ∈ f.other, j < cs.length ∧ j ≠ target
  | _ => True

/-- A new string, if there is one. -/
def addCstr (cs : List Cstr) : Option Cstr → List Cstr × Bool
  | some s => (cs ++ [s], true)
  | none => (cs, false)

/-- The strings after an operation and what it returns; `none` is an access outside of a
block. -/
def CstrOp.run (cs : List Cstr) : CstrOp → Option (List Cstr × Bool)
  | .init initialCapacity struct alloc =>
    (cstrInit initialCapacity struct alloc).map (addCstr cs)
  | .newLen data length struct alloc => (cstrNewLen data length struct alloc).map (addCstr cs)
  | .call target f alloc => do
    let s ← cs[target]?
    let other := (f.other.bind (cs[·]?)).getD s
    (f.perform s other alloc).map fun r => (cs.set target r.1, r.2)

/-- All strings of a program under any sequence of operations. -/
def cstrs : System (List Cstr) CstrOp where
  init cs := cs = []
  step cs op cs' := op.Enabled cs ∧ ∃ ok, op.run cs = some (cs', ok)

/-- What the source promises about every `cstr`: a NUL at `data[length]`, within the inline
capacity or the recorded heap capacity, which is the size of the block; and the flag says whether
`data` is a heap block. -/
structure Cstr.WellFormed (s : Cstr) : Prop where
  nul : s.mem[s.length]? = some 0
  room : s.length + 1 ≤ if cstrIsHeap s then cstrHeapCap s else cstrSsoCap
  flag : cstrIsHeap s = true ↔ s.data ≠ none
  block : s.mem.length = if cstrIsHeap s then cstrHeapCap s else cstrSsoCap

/-- What an operation does: it adds a string with the content given, or changes one as the call
says; if it fails, every string is what it was. -/
def CstrOp.Effect (cs cs' : List Cstr) (ok : Bool) : CstrOp → Prop
  | .init _ _ _ => (ok = true → ∃ s, cs' = cs ++ [s] ∧ s.content = []) ∧ (ok = false → cs' = cs)
  | .newLen data length _ _ =>
    (ok = true → ∃ s, cs' = cs ++ [s] ∧ s.content = (data.map (extent · length)).getD []) ∧
      (ok = false → cs' = cs)
  | .call target f _ =>
    (∀ j ≠ target, cs'[j]? = cs[j]?) ∧ ∀ s ∈ cs[target]?, ∃ s' ∈ cs'[target]?,
      (ok = true →
        s'.content = f.effect s.content ((f.other.bind (cs[·]?)).elim [] Cstr.content)) ∧
      (ok = false → s' = s)

/-! ## Writes -/

variable {s : Cstr} {xs ys zs bytes : List UInt8}

namespace Cstr

theorem Holds.content_eq (h : s.Holds xs) : s.content = xs := by
  obtain ⟨rest, hmem⟩ := h.mem
  rw [content, hmem, h.length, List.take_left]

theorem Holds.wellFormed (h : s.Holds xs) : s.WellFormed := by
  have hblock := h.described.length_mem
  obtain ⟨rest, hmem⟩ := h.mem
  refine ⟨?_, ?_, ?_, hblock⟩
  · rw [hmem, h.length]
    simp
  · rw [← hblock, h.length]
    exact h.length_lt
  · rw [h.described.isHeap, Option.isSome_iff_ne_none]

/-- Other bytes in the same block. -/
theorem Described.holds {m : List UInt8} (h : s.Described) (hm : m.length = s.mem.length)
    (heq : ∃ rest, m = zs ++ 0 :: rest) :
    ({ s.setMem m with length := zs.length } : Cstr).Holds zs := by
  obtain ⟨rest, heq⟩ := heq
  exact ⟨h.setMem hm, rfl, rest, (mem_setMem s m).trans heq⟩

@[simp] theorem setMem_setMem (s : Cstr) (m m' : List UInt8) :
    (s.setMem m).setMem m' = s.setMem m' := by
  unfold setMem
  cases s.data <;> rfl

@[simp] theorem length_setMem (s : Cstr) (m : List UInt8) : (s.setMem m).length = s.length := by
  unfold setMem
  cases s.data <;> rfl

theorem write_eq {m m' : List UInt8} {off : Nat} (hm : s.mem = m)
    (hstore : store m off bytes = some m') : s.write off bytes = some (s.setMem m') := by
  rw [write, hm, hstore, Option.map_some]

/-- The bytes are written behind the content with their NUL. -/
theorem Holds.write_end (h : s.Holds xs) (hroom : xs.length + bytes.length + 1 ≤ s.mem.length) :
    ∃ s', s.write s.length (bytes ++ [0]) = some s' ∧
      ({ s' with length := (xs ++ bytes).length } : Cstr).Holds (xs ++ bytes) := by
  obtain ⟨rest, hmem⟩ := h.mem
  have hfits : (bytes ++ [0]).length ≤ (0 :: rest : List UInt8).length := by
    rw [hmem] at hroom
    simp only [List.length_append, List.length_cons, List.length_nil] at hroom ⊢
    omega
  have hstore := store_append (l := xs) hfits
  rw [← h.length] at hstore
  refine ⟨_, write_eq hmem hstore, h.described.holds (hmem ▸ length_store hstore)
    ⟨(0 :: rest).drop (bytes ++ [0]).length, ?_⟩⟩
  simp only [List.append_assoc, List.singleton_append]

/-- The bytes are written behind the content, and then the NUL. -/
theorem Holds.write_nul (h : s.Holds xs) (hroom : xs.length + bytes.length + 1 ≤ s.mem.length) :
    ∃ s' s'', s.write s.length bytes = some s' ∧
      s'.write (xs.length + bytes.length) [0] = some s'' ∧
      ({ s'' with length := (xs ++ bytes).length } : Cstr).Holds (xs ++ bytes) := by
  obtain ⟨rest, hmem⟩ := h.mem
  have hrest : bytes.length + 1 ≤ (0 :: rest : List UInt8).length := by
    rw [hmem] at hroom
    simp only [List.length_append, List.length_cons] at hroom ⊢
    omega
  have hstore := store_append (l := xs) (by omega : bytes.length ≤ (0 :: rest).length)
  rw [← h.length] at hstore
  have hnul : ([0] : List UInt8).length ≤ ((0 :: rest : List UInt8).drop bytes.length).length := by
    rw [List.length_drop, List.length_singleton]
    omega
  have hstore' := store_append (l := xs ++ bytes) hnul
  rw [List.append_assoc, List.length_append] at hstore'
  refine ⟨_, _, write_eq hmem hstore, write_eq (mem_setMem _ _) hstore', ?_⟩
  rw [setMem_setMem]
  refine h.described.holds ?_ ⟨_, rfl⟩
  exact (length_store hstore').trans (hmem ▸ length_store hstore)

/-- The bytes are put between two parts of the content. -/
theorem Holds.splice {a b : List UInt8} {n : Nat} (h : s.Holds (a ++ b))
    (hn : n = (a ++ bytes ++ b).length)
    (hroom : (a ++ b).length + bytes.length + 1 ≤ s.mem.length) :
    ∃ s', cstrSplice a.length bytes n s = some s' ∧ s'.Holds (a ++ bytes ++ b) := by
  subst hn
  obtain ⟨rest, hmem⟩ := h.mem
  have hlen : s.length = a.length + b.length := by rw [h.length, List.length_append]
  have hsize : s.mem.length = a.length + b.length + (rest.length + 1) := by
    rw [hmem]
    simp only [List.length_append, List.length_cons]
  rw [List.length_append] at hroom
  -- the tail and its NUL, where it stands
  have hload : load s.mem a.length (s.length - a.length + 1) = some (b ++ [0]) := by
    have htail : s.mem = a ++ ((b ++ [0]) ++ rest) := by
      rw [hmem, List.append_assoc, List.append_assoc, List.singleton_append]
    have hb : s.length - a.length + 1 = (b ++ [0]).length := by
      rw [hlen, List.length_append, List.length_singleton]
      omega
    rw [htail, hb, load_append]
  -- where it goes
  have hfits : a.length + bytes.length + (b ++ [0]).length ≤ s.mem.length := by
    rw [List.length_append, List.length_singleton]
    omega
  have hstore := store_eq hfits
  have htake : s.mem.take (a.length + bytes.length) =
      a ++ (s.mem.drop a.length).take bytes.length := by
    rw [hmem, List.append_assoc, List.take_append, List.take_of_length_le (by omega),
      List.drop_left, Nat.add_sub_cancel_left]
  have hgap : ((s.mem.drop a.length).take bytes.length).length = bytes.length := by
    rw [List.length_take, List.length_drop]
    omega
  rw [htake, List.append_assoc] at hstore
  have hover : bytes.length ≤ ((s.mem.drop a.length).take bytes.length ++
      (b ++ [(0 : UInt8)] ++ s.mem.drop (a.length + bytes.length +
        (b ++ [(0 : UInt8)]).length))).length := by
    rw [List.length_append, hgap]
    omega
  have hstore' := store_append (l := a) hover
  rw [List.drop_left' hgap] at hstore'
  refine ⟨_, ?_, h.described.holds ((length_store hstore').trans (length_store hstore))
    ⟨s.mem.drop (a.length + bytes.length + (b ++ [0]).length), ?_⟩⟩
  · rw [cstrSplice, Cstr.move, hload, Option.bind_some, write_eq rfl hstore]
    simp only [Option.bind_eq_bind, Option.bind_some, write_eq (mem_setMem _ _) hstore',
      setMem_setMem]
  · simp only [List.append_assoc, List.singleton_append]

/-- A part in the middle of the content is taken out. -/
theorem Holds.cut {a c b : List UInt8} (h : s.Holds (a ++ (c ++ b))) :
    ∃ s', s.move a.length (a.length + c.length) (b.length + 1) = some s' ∧
      ({ s' with length := (a ++ b).length } : Cstr).Holds (a ++ b) := by
  obtain ⟨rest, hmem⟩ := h.mem
  have hload : load s.mem (a.length + c.length) (b.length + 1) = some (b ++ [0]) := by
    have htail : s.mem = (a ++ c) ++ ((b ++ [0]) ++ rest) := by
      rw [hmem]
      simp only [List.append_assoc, List.singleton_append]
    have hb : b.length + 1 = (b ++ [0]).length := by simp
    rw [htail, ← List.length_append, hb, load_append]
  have hfits : (b ++ [0]).length ≤ (c ++ (b ++ 0 :: rest)).length := by
    simp only [List.length_append, List.length_cons, List.length_nil]
    omega
  have hstore := store_append (l := a) hfits
  have hmem' : s.mem = a ++ (c ++ (b ++ 0 :: rest)) := by
    rw [hmem, List.append_assoc, List.append_assoc]
  refine ⟨_, ?_, h.described.holds (hmem' ▸ length_store hstore)
    ⟨(c ++ (b ++ 0 :: rest)).drop (b ++ [0]).length, ?_⟩⟩
  · rw [Cstr.move, hload, Option.bind_some, write_eq hmem' hstore]
  · simp only [List.append_assoc, List.singleton_append]

/-- The content is replaced. -/
theorem Holds.overwrite (h : s.Holds xs) (hroom : ys.length + 1 ≤ s.mem.length) :
    ∃ s', s.write 0 (ys ++ [0]) = some s' ∧
      ({ s' with length := ys.length } : Cstr).Holds ys := by
  have hfits : (ys ++ [0]).length ≤ s.mem.length := by
    rw [List.length_append, List.length_singleton]
    exact hroom
  have hstore := store_append (l := []) hfits
  refine ⟨_, write_eq rfl hstore, h.described.holds (length_store hstore)
    ⟨s.mem.drop (ys ++ [0]).length, ?_⟩⟩
  simp only [List.nil_append, List.append_assoc, List.singleton_append]

end Cstr

/-! ## One call -/

/-- What a call gives: the new content, or an unchanged string. -/
def Gives (s : Cstr) (r : Option (Cstr × Bool)) (zs : List UInt8) : Prop :=
  ∃ s' ok, r = some (s', ok) ∧ (ok = true → s'.Holds zs) ∧ (ok = false → s' = s)

theorem Gives.same (h : s.Holds xs) : Gives s (some (s, true)) xs :=
  ⟨s, true, rfl, fun _ => h, nofun⟩

theorem Gives.refused (zs : List UInt8) : Gives s (some (s, false)) zs :=
  ⟨s, false, rfl, nofun, fun _ => rfl⟩

/-- A mutator has its room or refuses. -/
theorem Gives.withRoom (h : s.Holds xs) {need : Nat} {alloc : Alloc} {writes : Cstr → Option Cstr}
    (hw : ∀ t : Cstr, t.Holds xs → need ≤ t.mem.length →
      ∃ t', writes t = some t' ∧ t'.Holds zs) : Gives s (withRoom s need alloc writes) zs := by
  rcases h.ensureCap need alloc with ⟨hcap, -⟩ | ⟨t, hcap, ht, hroom, -⟩
  · rw [Text.withRoom, hcap]
    exact Gives.refused zs
  · obtain ⟨t', hwrite, ht'⟩ := hw t ht hroom
    refine ⟨t', true, ?_, fun _ => ht', nofun⟩
    rw [Text.withRoom, hcap]
    simp only [Option.bind_eq_bind, Option.bind_some, if_true, hwrite, Option.map_some]

/-- Lengths are small enough for 32 bits, even two of them added. -/
theorem Cstr.Holds.length_lt_max (h : s.Holds xs) : xs.length < cstrMaxLen :=
  lt_of_lt_of_le (Nat.lt_of_succ_le h.length_lt) h.described.length_mem_le

/-- The bytes of another string, with or without its NUL. -/
theorem Cstr.Holds.load_content (h : s.Holds ys) {n : Nat} (hn : n ≤ ys.length) :
    load s.mem 0 n = some (ys.take n) := by
  obtain ⟨rest, hmem⟩ := h.mem
  rw [load_eq (by rw [hmem, List.length_append]; omega), hmem, List.drop_zero,
    List.take_append_of_le_length hn]

theorem Cstr.Holds.load_nul (h : s.Holds ys) :
    load s.mem 0 (ys.length + 1) = some (ys ++ [0]) := by
  obtain ⟨rest, hmem⟩ := h.mem
  have hlen := h.length_lt
  rw [load_eq (by omega), List.drop_zero, hmem, ← List.singleton_append, ← List.append_assoc,
    List.take_left' (by simp)]

variable {other : Cstr} {alloc : Alloc}

section

variable (h : s.Holds xs)

include h

/-- The sizes of an operation on `n` more bytes of a C string. -/
theorem size_text {n : Nat} (hn : n < 2 ^ 63) : toSize (s.length + n) = xs.length + n := by
  have := h.length_lt_max
  unfold cstrMaxLen at this
  rw [h.length]
  exact Nat.mod_eq_of_lt (by omega)

/-- The sizes of an operation on another string. -/
theorem u32_other (ho : other.Holds ys) {n : Nat} (hn : n ≤ ys.length) :
    toU32 (s.length + n) = xs.length + n := by
  have := h.length_lt_max
  have := ho.length_lt_max
  unfold cstrMaxLen at *
  rw [h.length]
  exact Nat.mod_eq_of_lt (by omega)

omit h in
theorem small_sizes {n : Nat} (hn : n ≤ cstrMaxSize) : toSize (n + 1) = n + 1 ∧ toU32 n = n := by
  unfold cstrMaxSize cstrMaxLen at hn
  exact ⟨Nat.mod_eq_of_lt (by omega), Nat.mod_eq_of_lt (by omega)⟩

theorem append_gives (text : CText) : Gives s (cstrAppend s text alloc) (xs ++ text.bytes) := by
  have hlen : toSize (s.length + text.len) = xs.length + text.len := size_text h text.fits
  unfold cstrAppend
  dsimp only
  split
  case isTrue hzero =>
    rw [List.length_eq_zero_iff.mp hzero, List.append_nil]
    exact .same h
  case isFalse =>
    rw [hlen]
    split
    case isTrue => exact .refused _
    case isFalse hmax =>
      obtain ⟨hsize, hu32⟩ := small_sizes (Nat.le_of_not_lt hmax)
      rw [hsize, hu32]
      refine .withRoom h fun t ht hroom => ?_
      obtain ⟨t', hwrite, hholds⟩ := ht.write_end hroom
      rw [List.length_append] at hholds
      exact ⟨_, by simp only [hwrite, Option.bind_eq_bind, Option.bind_some]; rfl, hholds⟩

theorem appendCstr_gives (ho : other.Holds ys) :
    Gives s (cstrAppendCstr s other alloc) (xs ++ ys) := by
  unfold cstrAppendCstr
  dsimp only
  split
  case isTrue hzero =>
    rw [ho.length] at hzero
    rw [List.length_eq_zero_iff.mp hzero, List.append_nil]
    exact .same h
  case isFalse =>
    rw [ho.length, u32_other h ho le_rfl]
    split
    case isTrue => exact .refused _
    case isFalse =>
      refine .withRoom h fun t ht hroom => ?_
      obtain ⟨t', hwrite, hholds⟩ := ht.write_end hroom
      rw [List.length_append] at hholds
      refine ⟨_, ?_, hholds⟩
      simp only [ho.load_nul, hwrite, Option.bind_eq_bind, Option.bind_some]

theorem ncat_gives (ho : other.Holds ys) (n : Nat) :
    Gives s (cstrNcat s other n alloc) (xs ++ ys.take n) := by
  have hmax := ho.length_lt_max
  have hcopy : (if n < other.length then toU32 n else other.length) = (ys.take n).length := by
    rw [ho.length, List.length_take]
    unfold cstrMaxLen at hmax
    unfold toU32
    split <;> omega
  have hle : (ys.take n).length ≤ ys.length := by
    rw [List.length_take]
    omega
  have htake : ys.take (ys.take n).length = ys.take n := by
    rw [List.length_take, List.take_eq_take_iff]
    omega
  unfold cstrNcat
  rw [hcopy]
  dsimp only
  split
  case isTrue hzero =>
    rw [List.length_eq_zero_iff.mp hzero, List.append_nil]
    exact .same h
  case isFalse =>
    rw [u32_other h ho hle]
    split
    case isTrue => exact .refused _
    case isFalse =>
      refine .withRoom h fun t ht hroom => ?_
      obtain ⟨t', t'', hwrite, hnul, hholds⟩ := ht.write_nul hroom
      rw [List.length_append] at hholds
      refine ⟨_, ?_, hholds⟩
      simp only [ho.load_content hle, htake, hwrite, hnul, Option.bind_eq_bind, Option.bind_some]

theorem appendChar_gives (c : UInt8) : Gives s (cstrAppendChar s c alloc) (xs ++ [c]) := by
  have hmax := h.length_lt_max
  have hlen : toU32 (s.length + 1) = xs.length + [c].length := by
    unfold cstrMaxLen at hmax
    rw [h.length]
    exact Nat.mod_eq_of_lt (by omega)
  unfold cstrAppendChar
  dsimp only
  rw [hlen]
  refine .withRoom h fun t ht hroom => ?_
  obtain ⟨t', t'', hwrite, hnul, hholds⟩ := ht.write_nul hroom
  rw [List.length_append] at hholds
  exact ⟨_, by simp only [hwrite, hnul, Option.bind_eq_bind, Option.bind_some], hholds⟩

/-- The content as the part in front of an index and the part behind it. -/
theorem splice_at {index : Nat} (hindex : index ≤ xs.length) {n : Nat}
    (hn : n = xs.length + bytes.length) (hroom : n + 1 ≤ s.mem.length) :
    ∃ s', cstrSplice index bytes n s = some s' ∧
      s'.Holds (xs.take index ++ bytes ++ xs.drop index) := by
  have hsplit : s.Holds (xs.take index ++ xs.drop index) := by
    rwa [List.take_append_drop]
  have hlen : (xs.take index ++ xs.drop index).length = xs.length := by
    rw [List.take_append_drop]
  have hpos : (xs.take index).length = index := by
    rw [List.length_take]
    omega
  have htotal : n = (xs.take index ++ bytes ++ xs.drop index).length := by
    rw [List.length_append] at hlen
    rw [List.length_append, List.length_append]
    omega
  have := hsplit.splice htotal (by omega)
  rwa [hpos] at this

theorem insert_gives (index : Nat) (text : CText) :
    Gives s (cstrInsert s index text alloc) (xs.take index ++ text.bytes ++ xs.drop index) := by
  have hlen : toSize (s.length + text.len) = xs.length + text.len := size_text h text.fits
  unfold cstrInsert
  dsimp only
  split
  case isTrue => exact .refused _
  case isFalse hindex =>
    rw [h.length] at hindex
    split
    case isTrue hzero =>
      rw [List.length_eq_zero_iff.mp hzero, List.append_nil, List.take_append_drop]
      exact .same h
    case isFalse =>
      rw [hlen]
      split
      case isTrue => exact .refused _
      case isFalse hmax =>
        obtain ⟨hsize, hu32⟩ := small_sizes (Nat.le_of_not_lt hmax)
        rw [hsize, hu32]
        exact .withRoom h fun t ht hroom => splice_at ht (Nat.le_of_not_lt hindex) rfl hroom

theorem insertCstr_gives (ho : other.Holds ys) (index : Nat) :
    Gives s (cstrInsertCstr s index other alloc) (xs.take index ++ ys ++ xs.drop index) := by
  unfold cstrInsertCstr
  dsimp only
  split
  case isTrue => exact .refused _
  case isFalse hindex =>
    rw [h.length] at hindex
    split
    case isTrue hzero =>
      rw [ho.length] at hzero
      rw [List.length_eq_zero_iff.mp hzero, List.append_nil, List.take_append_drop]
      exact .same h
    case isFalse =>
      rw [ho.length, u32_other h ho le_rfl]
      split
      case isTrue => exact .refused _
      case isFalse =>
        refine .withRoom h fun t ht hroom => ?_
        obtain ⟨t', hsplice, hholds⟩ := splice_at ht (Nat.le_of_not_lt hindex) rfl hroom
        refine ⟨t', ?_, hholds⟩
        simp only [ho.load_content le_rfl, List.take_length, Option.bind_eq_bind, Option.bind_some,
          hsplice]

theorem prepend_gives (text : CText) : Gives s (cstrPrepend s text alloc) (text.bytes ++ xs) := by
  have hinsert : Gives s (cstrInsert s 0 text alloc) _ := insert_gives h 0 text
  rw [List.take_zero, List.nil_append, List.drop_zero] at hinsert
  unfold cstrInsert at hinsert
  rwa [if_neg (Nat.not_lt_zero _)] at hinsert

theorem prependCstr_gives (ho : other.Holds ys) :
    Gives s (cstrPrependCstr s other alloc) (ys ++ xs) := by
  have hinsert : Gives s (cstrInsertCstr s 0 other alloc) _ := insertCstr_gives h ho 0
  rw [List.take_zero, List.nil_append, List.drop_zero] at hinsert
  unfold cstrInsertCstr at hinsert
  rwa [if_neg (Nat.not_lt_zero _)] at hinsert

/-- A part of the content is moved over, and the length corrected. -/
theorem cut_at {index count : Nat} (hle : index + count ≤ xs.length) :
    ∃ s', s.move index (index + count) (xs.length - index - count + 1) = some s' ∧
      ({ s' with length := xs.length - count } : Cstr).Holds
        (xs.take index ++ xs.drop (index + count)) := by
  have hsplit : xs = xs.take index ++ ((xs.drop index).take count ++ xs.drop (index + count)) := by
    rw [← List.drop_drop, List.take_append_drop, List.take_append_drop]
  have ha : (xs.take index).length = index := by
    rw [List.length_take]
    omega
  have hc : ((xs.drop index).take count).length = count := by
    rw [List.length_take, List.length_drop]
    omega
  have hb : (xs.drop (index + count)).length = xs.length - index - count := by
    rw [List.length_drop]
    omega
  have hholds := h
  rw [hsplit] at hholds
  obtain ⟨s', hmove, hs'⟩ := hholds.cut
  rw [ha, hc, hb] at hmove
  rw [List.length_append, ha, hb] at hs'
  refine ⟨s', hmove, ?_⟩
  have hlen : xs.length - count = index + (xs.length - index - count) := by omega
  rw [hlen]
  exact hs'

theorem remove_gives (index count : Nat) :
    Gives s (cstrRemove s index count)
      (xs.take index ++ xs.drop (index + min count (xs.length - index))) := by
  have hmax := h.length_lt_max
  unfold cstrMaxLen at hmax
  unfold cstrRemove
  rw [h.length]
  dsimp only
  split
  case isTrue hindex =>
    rw [decide_eq_false fun hc => absurd hc.1 (by omega)]
    exact .refused _
  case isFalse hindex =>
    have hidx : toU32 index = index := Nat.mod_eq_of_lt (by omega)
    have hcnt : (if count > xs.length - index then xs.length - index else toU32 count) =
        min count (xs.length - index) := by
      unfold toU32
      split <;> omega
    rw [hidx, hcnt]
    split
    case isTrue hzero =>
      rw [hzero, Nat.add_zero, List.take_append_drop]
      exact .same h
    case isFalse =>
      obtain ⟨s', hmove, hs'⟩ := cut_at h
        (by omega : index + min count (xs.length - index) ≤ xs.length)
      exact ⟨_, true, by simp only [hmove, Option.bind_eq_bind, Option.bind_some], fun _ => hs',
        nofun⟩

theorem removeSubstr_holds (start slen : Nat) :
    ∃ s', cstrRemoveSubstr s start slen = some s' ∧
      s'.Holds (xs.take start ++ xs.drop (start + min slen (xs.length - start))) := by
  have hmax := h.length_lt_max
  unfold cstrMaxLen at hmax
  unfold cstrRemoveSubstr
  rw [h.length]
  dsimp only
  split
  case isTrue hnone =>
    refine ⟨s, rfl, ?_⟩
    have hzero : min slen (xs.length - start) = 0 := by omega
    rw [hzero, Nat.add_zero, List.take_append_drop]
    exact h
  case isFalse hsome =>
    have hcnt : (if slen > xs.length - start then xs.length - start else slen) =
        min slen (xs.length - start) := by
      split <;> omega
    rw [hcnt]
    generalize hk : min slen (xs.length - start) = k
    have hu32 : toU32 k = k := Nat.mod_eq_of_lt (by omega)
    rw [hu32]
    split
    case isTrue =>
      obtain ⟨s', hmove, hs'⟩ := cut_at h (by omega : start + k ≤ xs.length)
      exact ⟨_, by simp only [hmove, Option.bind_eq_bind, Option.bind_some], hs'⟩
    case isFalse htail =>
      -- nothing is left behind the part, so the NUL alone is written
      obtain ⟨rest, hmem⟩ := h.mem
      have hsplit : xs ++ 0 :: rest = xs.take start ++ (xs.drop start ++ 0 :: rest) := by
        rw [← List.append_assoc, List.take_append_drop]
      have hfits : ([0] : List UInt8).length ≤ (xs.drop start ++ 0 :: rest).length := by
        simp only [List.length_append, List.length_cons, List.length_nil]
        omega
      have hstart : (xs.take start).length = start := by
        rw [List.length_take]
        omega
      have hstore := store_append (l := xs.take start) hfits
      rw [hstart] at hstore
      have hmem' := hmem.trans hsplit
      have hend : start + k = xs.length := by omega
      have hlen : xs.length - k = (xs.take start).length := by omega
      simp only [Cstr.write_eq hmem' hstore, Option.bind_eq_bind, Option.bind_some]
      refine ⟨_, rfl, ?_⟩
      rw [hlen, hend, List.drop_length, List.append_nil]
      exact h.described.holds (hmem' ▸ length_store hstore)
        ⟨(xs.drop start ++ 0 :: rest).drop 1, rfl⟩

theorem copy_gives (ho : other.Holds ys) : Gives s (cstrCopy s other alloc) ys := by
  unfold cstrCopy
  rw [ho.length]
  refine .withRoom h fun t ht hroom => ?_
  obtain ⟨t', hwrite, ht'⟩ := ht.overwrite hroom
  exact ⟨_, by simp only [ho.load_nul, hwrite, Option.bind_eq_bind, Option.bind_some], ht'⟩

theorem shrinkToFit_holds : ∃ s', cstrShrinkToFit s alloc = some s' ∧ s'.Holds xs := by
  have hmax := h.length_lt_max
  have hlen : toU32 (s.length + 1) = xs.length + 1 := by
    unfold cstrMaxLen at hmax
    rw [h.length]
    exact Nat.mod_eq_of_lt (by omega)
  unfold cstrShrinkToFit
  rw [h.described.isHeap, hlen]
  cases hd : s.data with
  | none => exact ⟨s, rfl, h⟩
  | some block =>
    obtain ⟨-, -, hbuf⟩ := (Cstr.described_heap hd).mp h.described
    have hsblock : s.mem = block := by rw [Cstr.mem, hd, Option.getD_some]
    obtain ⟨rest, hmem⟩ := h.mem
    rw [hsblock] at hmem
    simp only [Option.isSome_some, reduceCtorEq, if_false]
    split
    case isTrue => exact ⟨s, rfl, h⟩
    case isFalse =>
      cases alloc with
      | none => exact ⟨s, rfl, h⟩
      | some junk =>
        have hblock := length_realloc block (xs.length + 1) junk
        have hroom := h.length_lt
        rw [hsblock] at hroom
        refine ⟨_, rfl, ?_, h.length, [], ?_⟩
        · exact (Cstr.described_heap rfl).mpr ⟨by rw [hblock], hblock.le.trans hmax, hbuf⟩
        · have htake := take_realloc junk (n := xs.length + 1) (k := xs.length + 1) le_rfl hroom
          rw [List.take_of_length_le hblock.le] at htake
          rw [Cstr.mem, Option.getD_some, htake, hmem, ← List.singleton_append,
            ← List.append_assoc, List.take_left' (by simp)]

end

/-- Every call gives what its name says. -/
theorem perform_gives (h : s.Holds xs) (f : CstrCall) (ho : f.other ≠ none → other.Holds ys) :
    Gives s (f.perform s other alloc) (f.effect xs ys) := by
  have hvoid : ∀ {r : Option Cstr} {zs : List UInt8}, (∃ s', r = some s' ∧ s'.Holds zs) →
      Gives s (r.map (·, true)) zs := by
    rintro r zs ⟨s', rfl, hs'⟩
    exact ⟨s', true, rfl, fun _ => hs', nofun⟩
  cases f with
  | append text => exact append_gives h text
  | appendCstr j => exact appendCstr_gives h (ho nofun)
  | ncat j n => exact ncat_gives h (ho nofun) n
  | appendChar c => exact appendChar_gives h c
  | prepend text => exact prepend_gives h text
  | prependCstr j => exact prependCstr_gives h (ho nofun)
  | insert index text => exact insert_gives h index text
  | insertCstr index j => exact insertCstr_gives h (ho nofun) index
  | remove index count => exact remove_gives h index count
  | removeSubstr start slen => exact hvoid (removeSubstr_holds h start slen)
  | copy j => exact copy_gives h (ho nofun)
  | shrinkToFit => exact hvoid (shrinkToFit_holds h)

/-! ## New strings -/

theorem initInplace_holds (buf : Nat → UInt8) : (cstrInitInplace buf).Holds [] := by
  refine ⟨(Cstr.described_inline rfl).mpr ⟨rfl, ?_⟩, rfl, extent buf (cstrSsoCap - 1), rfl⟩
  rw [cstrInitInplace, List.length_cons, length_extent]
  rfl

theorem cstrInit_holds (initialCapacity : Nat) (struct alloc : Alloc) :
    ∃ r, cstrInit initialCapacity struct alloc = some r ∧ ∀ s ∈ r, s.Holds [] := by
  unfold cstrInit
  split
  case isTrue => exact ⟨none, rfl, nofun⟩
  case isFalse =>
    cases struct with
    | none => exact ⟨none, rfl, nofun⟩
    | some buf =>
      have hnew := initInplace_holds buf
      dsimp only
      split
      case isTrue =>
        rcases hnew.ensureCap (initialCapacity + 1) alloc with ⟨hcap, -⟩ | ⟨s, hcap, hs, -⟩
        · exact ⟨none, by rw [hcap]; rfl, nofun⟩
        · refine ⟨some s, by rw [hcap]; rfl, ?_⟩
          rintro s ⟨⟩
          exact hs
      case isFalse =>
        refine ⟨_, rfl, ?_⟩
        rintro s ⟨⟩
        exact hnew

theorem cstrNewLen_holds (data : Option (Nat → UInt8)) {length : Nat} (hlength : length < 2 ^ 63)
    (struct alloc : Alloc) :
    ∃ r, cstrNewLen data length struct alloc = some r ∧
      ∀ s ∈ r, s.Holds ((data.map (extent · length)).getD []) := by
  unfold cstrNewLen
  split
  case isTrue => exact ⟨none, rfl, nofun⟩
  case isFalse hnull =>
    cases struct with
    | none => exact ⟨none, rfl, nofun⟩
    | some buf =>
      have hnew := initInplace_holds buf
      dsimp only
      split
      case isTrue hpos =>
        obtain ⟨p, rfl⟩ : ∃ p, data = some p :=
          Option.ne_none_iff_exists'.mp fun hdata => hnull ⟨hdata, hpos⟩
        have hsize : toSize (length + 1) = length + 1 := Nat.mod_eq_of_lt (by omega)
        rw [hsize]
        rcases hnew.ensureCap (length + 1) alloc with ⟨hcap, -⟩ | ⟨s, hcap, hs, hroom, hmax⟩
        · exact ⟨none, by rw [hcap]; rfl, nofun⟩
        · have hfits : ([] : List UInt8).length + (extent p length).length + 1 ≤ s.mem.length := by
            rw [length_extent, List.length_nil]
            omega
          obtain ⟨s', s'', hwrite, hnul, hholds⟩ := hs.write_nul hfits
          rw [hs.length, List.length_nil] at hwrite
          rw [length_extent, List.length_nil, Nat.zero_add] at hnul
          rw [List.nil_append, length_extent] at hholds
          have hu32 : toU32 length = length :=
            Nat.mod_eq_of_lt (by unfold cstrMaxLen at hmax; omega)
          refine ⟨some { s'' with length := length }, ?_, ?_⟩
          · rw [hcap]
            simp only [Option.bind_eq_bind, Option.bind_some, if_true, hwrite, hnul, hu32]
          · rintro t ⟨⟩
            exact hholds
      case isFalse hzero =>
        obtain rfl : length = 0 := Nat.eq_zero_of_not_pos hzero
        refine ⟨_, rfl, ?_⟩
        rintro s ⟨⟩
        cases data <;> exact hnew

/-- With memory a new string has the room asked for. -/
theorem cstrInit_some {initialCapacity : Nat} (hlt : initialCapacity < cstrMaxSize)
    (buf junk : Nat → UInt8) :
    ∃ s, cstrInit initialCapacity (some buf) (some junk) = some (some s) ∧ s.Holds [] ∧
      initialCapacity + 1 ≤ s.mem.length := by
  have hnew := initInplace_holds buf
  rw [cstrInit, if_neg (Nat.not_le_of_lt hlt)]
  dsimp only
  split
  case isTrue =>
    obtain ⟨s, hcap, hs, hroom⟩ := hnew.ensureCap_some (initialCapacity + 1) hlt junk
    exact ⟨s, by rw [hcap]; rfl, hs, hroom⟩
  case isFalse hsmall =>
    refine ⟨_, rfl, hnew, ?_⟩
    have hinline : (cstrInitInplace buf).mem.length = cstrSsoCap := by
      rw [cstrInitInplace, Cstr.mem, Option.getD_none, List.length_cons, length_extent]
      rfl
    omega

/-- With memory a copy of a short text is made. -/
theorem cstrNewLen_some (p : Nat → UInt8) {length : Nat} (hlt : length < cstrMaxLen)
    (buf junk : Nat → UInt8) :
    ∃ s, cstrNewLen (some p) length (some buf) (some junk) = some (some s) ∧
      s.Holds (extent p length) := by
  have hsize : length < 2 ^ 63 := by
    unfold cstrMaxLen at hlt
    omega
  obtain ⟨r, hr, hholds⟩ := cstrNewLen_holds (some p) hsize (some buf) (some junk)
  cases r with
  | some s => exact ⟨s, hr, hholds s rfl⟩
  | none =>
    -- it fails without memory only
    exfalso
    obtain ⟨s, hcap, -, -⟩ :=
      (initInplace_holds buf).ensureCap_some (length + 1) hlt junk
    have hcopy : toSize (length + 1) = length + 1 := Nat.mod_eq_of_lt (by omega)
    rw [cstrNewLen, if_neg (by simp), hcopy] at hr
    dsimp only at hr
    split at hr
    · rw [hcap] at hr
      simp [Option.bind_eq_some_iff] at hr
    · cases hr

/-! ## Runs -/

/-- Every string holds its content. -/
def AllHold (cs : List Cstr) : Prop := ∀ s ∈ cs, ∃ xs, s.Holds xs

variable {cs cs' : List Cstr}

theorem addCstr_effect (h : AllHold cs) {r : Option Cstr} (hr : ∀ s ∈ r, s.Holds zs) :
    AllHold (addCstr cs r).1 ∧
      ((addCstr cs r).2 = true → ∃ s : Cstr, (addCstr cs r).1 = cs ++ [s] ∧ s.content = zs) ∧
      ((addCstr cs r).2 = false → (addCstr cs r).1 = cs) := by
  cases r with
  | none => exact ⟨h, nofun, fun _ => rfl⟩
  | some s =>
    refine ⟨fun t ht => ?_, fun _ => ⟨s, rfl, (hr s rfl).content_eq⟩, nofun⟩
    rcases List.mem_append.mp ht with ht | ht
    · exact h t ht
    · obtain rfl := List.mem_singleton.mp ht
      exact ⟨zs, hr t rfl⟩

theorem call_effect (h : AllHold cs) {target : Nat} {f : CstrCall} {alloc : Alloc}
    (henabled : (CstrOp.call target f alloc).Enabled cs) :
    ∃ cs' ok, (CstrOp.call target f alloc).run cs = some (cs', ok) ∧ AllHold cs' ∧
      (CstrOp.call target f alloc).Effect cs cs' ok := by
  obtain ⟨htarget, hother⟩ := henabled
  have hget : cs[target]? = some cs[target] := List.getElem?_eq_getElem htarget
  obtain ⟨xs, hs⟩ := h cs[target] (List.getElem_mem htarget)
  generalize cs[target] = s at hget hs
  -- the string that the call reads, if it reads one
  have hread : ∃ other ys, (f.other.bind (cs[·]?)).getD s = other ∧
      (f.other ≠ none → other.Holds ys) ∧
      (f.other.bind (cs[·]?)).elim [] Cstr.content = ys := by
    cases hf : f.other with
    | none => exact ⟨s, [], rfl, fun hne => absurd rfl hne, rfl⟩
    | some j =>
      obtain ⟨hj, -⟩ := hother j hf
      obtain ⟨ys, hys⟩ := h cs[j] (List.getElem_mem hj)
      refine ⟨cs[j], ys, ?_, fun _ => hys, ?_⟩
      · simp [List.getElem?_eq_getElem hj]
      · simp [List.getElem?_eq_getElem hj, hys.content_eq]
  obtain ⟨other, ys, hother, ho, hys⟩ := hread
  have hgives : Gives s (f.perform s other alloc) _ := perform_gives hs f ho
  obtain ⟨s', ok, hperform, hok, hfailed⟩ := hgives
  refine ⟨cs.set target s', ok, ?_, fun t ht => ?_, fun j hj => ?_, fun t ht => ?_⟩
  · simp only [CstrOp.run, hget, Option.bind_eq_bind, Option.bind_some, hother, hperform,
      Option.map_some]
  · rcases List.mem_or_eq_of_mem_set ht with ht | rfl
    · exact h t ht
    · cases ok with
      | true => exact ⟨_, hok rfl⟩
      | false => exact ⟨xs, hfailed rfl ▸ hs⟩
  · exact List.getElem?_set_ne (Ne.symm hj)
  · obtain rfl : s = t := Option.some.inj (hget.symm.trans ht)
    refine ⟨s', List.getElem?_set_self htarget, fun h' => ?_, hfailed⟩
    rw [(hok h').content_eq, hys, hs.content_eq]

theorem run_effect (h : AllHold cs) {op : CstrOp} (henabled : op.Enabled cs) :
    ∃ cs' ok, op.run cs = some (cs', ok) ∧ AllHold cs' ∧ op.Effect cs cs' ok := by
  cases op with
  | init initialCapacity struct alloc =>
    obtain ⟨r, hr, hholds⟩ := cstrInit_holds initialCapacity struct alloc
    obtain ⟨hall, heffect⟩ := addCstr_effect h hholds
    exact ⟨_, _, by rw [CstrOp.run, hr, Option.map_some], hall, heffect⟩
  | newLen data length struct alloc =>
    obtain ⟨r, hr, hholds⟩ := cstrNewLen_holds data length.isLt struct alloc
    obtain ⟨hall, heffect⟩ := addCstr_effect h hholds
    exact ⟨_, _, by rw [CstrOp.run, hr, Option.map_some], hall, heffect⟩
  | call target f alloc => exact call_effect h henabled

theorem reach_allHold (h : Reach cstrs AnyStep cs) : AllHold cs := by
  refine h.invariant AllHold ?_ ?_
  · rintro cs rfl
    exact nofun
  · rintro cs op cs' hall - ⟨henabled, ok, hrun⟩
    obtain ⟨cs'', ok', hrun', hall', -⟩ := run_effect hall henabled
    obtain ⟨rfl, rfl⟩ : cs'' = cs' ∧ ok' = ok := by simpa [hrun] using hrun'.symm
    exact hall'

/-- In every run every string keeps its NUL inside the block that its flag and its capacity
describe, and every operation stays inside the blocks and has its effect, or returns false and
changes nothing. -/
theorem cstr_mutators (h : Reach cstrs AnyStep cs) :
    (∀ s ∈ cs, s.WellFormed) ∧ ∀ op : CstrOp, op.Enabled cs →
      ∃ cs' ok, op.run cs = some (cs', ok) ∧ (∀ s ∈ cs', s.WellFormed) ∧
        op.Effect cs cs' ok := by
  have hwell : ∀ cs, AllHold cs → ∀ s ∈ cs, s.WellFormed := by
    intro cs hall s hs
    obtain ⟨xs, hholds⟩ := hall s hs
    exact hholds.wellFormed
  have hall := reach_allHold h
  refine ⟨hwell cs hall, fun op henabled => ?_⟩
  obtain ⟨cs', ok, hrun, hall', heffect⟩ := run_effect hall henabled
  exact ⟨cs', ok, hrun, hwell cs' hall', heffect⟩

theorem cstr_mutators_inline : ∃ cs, Reach cstrs AnyStep cs ∧ (∀ s ∈ cs, s.WellFormed) ∧
    cs.map Cstr.content = [[97]] ∧
    ∃ cs', (CstrOp.call 0 (.appendChar 98) none).run cs = some (cs', true) ∧
      (∀ s ∈ cs', s.WellFormed) ∧ cs'.map Cstr.content = [[97, 98]] := by
  have hreach : Reach cstrs AnyStep [⟨none, 1, 0, [97] ++ 0 :: List.replicate 14 0⟩] :=
    (Reach.init rfl).step (a := .newLen (some fun _ => 97) 1 (some fun _ => 0) none) trivial
      ⟨trivial, true, rfl⟩
  obtain ⟨hwell, hop⟩ := cstr_mutators hreach
  obtain ⟨cs', ok, hrun, hwell', -⟩ := hop (.call 0 (.appendChar 98) none) ⟨by decide, nofun⟩
  have hran : (CstrOp.call 0 (.appendChar 98) none).run
      [⟨none, 1, 0, [97] ++ 0 :: List.replicate 14 0⟩] =
      some ([⟨none, 2, 0, [97, 98] ++ 0 :: List.replicate 13 0⟩], true) := rfl
  rw [hran] at hrun
  cases hrun
  exact ⟨_, hreach, hwell, by decide, _, hran, hwell', by decide⟩

end Solidc.Text
