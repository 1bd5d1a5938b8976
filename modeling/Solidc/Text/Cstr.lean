import Solidc.Lib.Buffer
import Solidc.Lib.CString
import Mathlib.Data.Nat.Bitwise
import Mathlib.Order.Nat

/-! # Strings with an inline buffer

`cstr` as the source keeps it: `data` leads to the inline buffer of 16 bytes or to a heap block,
and the highest bit of `capacity` says which. Every access to bytes goes through `load` and
`store`, so a value means that it stayed inside its block. Lengths and capacities are 32-bit
values, sizes 64-bit ones.

* `Cstr.Holds s xs` — the string holds `xs`: its bytes are followed by a NUL inside the block,
  and the flag and the capacity describe the block;
* `Cstr.Holds.ensureCap` — after `cstr_ensure_cap` the string holds the same and has the room asked
  for, or nothing has changed.
-/

namespace Solidc.Text

open CLib

def cstrMaxLen : Nat := 0x7FFFFFFF
def cstrSsoCap : Nat := 16
def cstrHeapFlag : Nat := 0x80000000
def cstrMinHeap : Nat := 32

/-- The value of an expression of type `uint32_t`. -/
def toU32 (n : Nat) : Nat := n % 2 ^ 32

/-- The value of an expression of type `size_t`. -/
def toSize (n : Nat) : Nat := n % 2 ^ 64

/-- `cstr`. A string whose `data` leads to its own `buf` has none here, one with a heap block the
bytes of that block. -/
structure Cstr where
  data : Option (List UInt8)
  length : Nat
  capacity : Nat
  buf : List UInt8

/-- What `malloc` or `realloc` returns: NULL, or a block with some bytes behind those that it
keeps. -/
abbrev Alloc : Type := Option (Nat → UInt8)

/-- A C string in memory; no object is larger than `PTRDIFF_MAX`. -/
structure CText extends CString where
  fits : bytes.length < 2 ^ 63

namespace Cstr

variable (s : Cstr)

/-- The bytes that `data` leads to. -/
def mem : List UInt8 := s.data.getD s.buf

/-- The string with other bytes behind `data`. -/
def setMem (mem : List UInt8) : Cstr :=
  match s.data with
  | none => { s with buf := mem }
  | some _ => { s with data := some mem }

/-- The bytes are copied to `data + off`. -/
def write (off : Nat) (bytes : List UInt8) : Option Cstr := (store s.mem off bytes).map s.setMem

/-- `memmove(data + dst, data + src, n)`. -/
def move (dst src n : Nat) : Option Cstr := (load s.mem src n).bind (s.write dst)

/-- The content of the string. -/
def content : List UInt8 := s.mem.take s.length

end Cstr

/-! ## Capacities -/

def cstrIsHeap (s : Cstr) : Bool := s.capacity &&& cstrHeapFlag != 0

/-- `capacity & ~CSTR_HEAP_FLAG`. -/
def cstrHeapCap (s : Cstr) : Nat := s.capacity &&& (2 ^ 32 - 1 - cstrHeapFlag)

/-- The loop of `cstr_grow_cap`, which starts at 32 at least. -/
def growLoop (cap need : Nat) : Nat :=
  if _h : 0 < cap ∧ cap < need then
    if cap ≤ cstrMaxLen / 2 then growLoop (cap * 2) need else cstrMaxLen
  else cap
termination_by need - cap

def cstrGrowCap (current need : Nat) : Nat :=
  growLoop (if current < cstrMinHeap then cstrMinHeap else current) need

/-- `cstr_init_inplace` on a string with the given inline bytes. -/
def cstrInitInplace (buf : Nat → UInt8) : Cstr :=
  ⟨none, 0, 0, 0 :: extent buf (cstrSsoCap - 1)⟩

/-- `cstr_ensure_cap`; the boolean is what it returns. -/
def cstrEnsureCap (s : Cstr) (need : Nat) (alloc : Alloc) : Option (Cstr × Bool) :=
  if need > cstrMaxLen then some (s, false)
  else
    let need32 := toU32 need
    if cstrIsHeap s = false then
      if need32 ≤ cstrSsoCap then some (s, true)
      else
        let cap := cstrGrowCap cstrSsoCap need32
        match alloc with
        | none => some (s, false)
        | some junk => do
          let bytes ← load s.buf 0 (toU32 (s.length + 1))
          let mem ← store (extent junk cap) 0 bytes
          some ({ s with data := some mem, capacity := cstrHeapFlag ||| cap }, true)
    else
      let curCap := cstrHeapCap s
      if need32 ≤ curCap then some (s, true)
      else
        let newCap := cstrGrowCap curCap need32
        if newCap = 0 then some (s, false)
        else
          match alloc with
          | none => some (s, false)
          | some junk => do
            let block ← s.data
            some ({ s with
              data := some (realloc block newCap junk)
              capacity := cstrHeapFlag ||| newCap }, true)

/-- A mutator that needs room: `if (!cstr_ensure_cap(s, need)) return false;` and then its
writes. -/
def withRoom (s : Cstr) (need : Nat) (alloc : Alloc) (writes : Cstr → Option Cstr) :
    Option (Cstr × Bool) := do
  let (s, ok) ← cstrEnsureCap s need alloc
  if ok then (writes s).map (·, true) else some (s, false)

/-! ## The invariant -/

/-- The flag and the capacity describe the block. -/
def Cstr.Described (s : Cstr) : Prop :=
  match s.data with
  | none => s.capacity = 0 ∧ s.buf.length = cstrSsoCap
  | some block => s.capacity = cstrHeapFlag ||| block.length ∧ block.length ≤ cstrMaxLen ∧
      s.buf.length = cstrSsoCap

/-- The string holds `xs` and a NUL behind it. -/
structure Cstr.Holds (s : Cstr) (xs : List UInt8) : Prop where
  described : s.Described
  length : s.length = xs.length
  mem : ∃ rest, s.mem = xs ++ 0 :: rest

variable {s : Cstr} {xs ys : List UInt8}

theorem and_heapFlag_or (n : Nat) : (cstrHeapFlag ||| n) &&& cstrHeapFlag ≠ 0 := by
  have hbit : (cstrHeapFlag ||| n).testBit 31 = true := by
    rw [Nat.testBit_or, show cstrHeapFlag.testBit 31 = true from by decide, Bool.true_or]
  intro hzero
  have := congrArg (Nat.testBit · 31) hzero
  rw [Nat.testBit_and, hbit, show cstrHeapFlag.testBit 31 = true from by decide] at this
  simp at this

theorem and_capMask_or {n : Nat} (h : n ≤ cstrMaxLen) :
    (cstrHeapFlag ||| n) &&& (2 ^ 32 - 1 - cstrHeapFlag) = n := by
  unfold cstrMaxLen at h
  have hmask : (2 ^ 32 - 1 - cstrHeapFlag : Nat) = 2 ^ 31 - 1 := by decide
  have hor : cstrHeapFlag ||| n = 2 ^ 31 * 1 + n := by
    rw [Nat.two_pow_add_eq_or_of_lt (by omega)]
    rfl
  rw [hmask, Nat.and_two_pow_sub_one_eq_mod, hor]
  omega

namespace Cstr

theorem described_inline (hd : s.data = none) :
    s.Described ↔ s.capacity = 0 ∧ s.buf.length = cstrSsoCap := by
  rw [Described, hd]

theorem described_heap {block : List UInt8} (hd : s.data = some block) :
    s.Described ↔ s.capacity = cstrHeapFlag ||| block.length ∧ block.length ≤ cstrMaxLen ∧
      s.buf.length = cstrSsoCap := by
  rw [Described, hd]

theorem Described.isHeap (h : s.Described) : cstrIsHeap s = s.data.isSome := by
  cases hd : s.data with
  | none =>
    rw [cstrIsHeap, ((described_inline hd).mp h).1]
    rfl
  | some block =>
    rw [cstrIsHeap, ((described_heap hd).mp h).1]
    simpa using and_heapFlag_or block.length

theorem Described.heapCap {block : List UInt8} (h : s.Described) (hd : s.data = some block) :
    cstrHeapCap s = block.length := by
  obtain ⟨hcap, hle, -⟩ := (described_heap hd).mp h
  rw [cstrHeapCap, hcap, and_capMask_or hle]

theorem Described.length_mem (h : s.Described) :
    s.mem.length = if cstrIsHeap s then cstrHeapCap s else cstrSsoCap := by
  cases hd : s.data with
  | none => rw [h.isHeap, hd, mem, hd]; exact ((described_inline hd).mp h).2
  | some block => rw [h.isHeap, hd, h.heapCap hd, mem, hd]; rfl

theorem Described.length_mem_le (h : s.Described) : s.mem.length ≤ cstrMaxLen := by
  cases hd : s.data with
  | none => rw [mem, hd, Option.getD_none, ((described_inline hd).mp h).2]; decide
  | some block => rw [mem, hd]; exact ((described_heap hd).mp h).2.1

@[simp] theorem mem_setMem (s : Cstr) (m : List UInt8) : (s.setMem m).mem = m := by
  unfold setMem
  split
  · next hd => simp [mem, hd]
  · rfl

theorem Described.setMem {m : List UInt8} (h : s.Described) (hm : m.length = s.mem.length) :
    (s.setMem m).Described := by
  unfold Cstr.setMem
  split
  · next hd =>
    rw [mem, hd, Option.getD_none] at hm
    obtain ⟨hcap, hbuf⟩ := (described_inline hd).mp h
    have hd' : ({ s with buf := m } : Cstr).data = none := hd
    exact (described_inline hd').mpr ⟨hcap, hm.trans hbuf⟩
  · next block hd =>
    rw [mem, hd, Option.getD_some] at hm
    obtain ⟨hcap, hle, hbuf⟩ := (described_heap hd).mp h
    exact (described_heap rfl).mpr ⟨hm ▸ hcap, hm ▸ hle, hbuf⟩

end Cstr

/-! ## Room -/

/-- Growing gives a capacity that is large enough, up to the greatest one. -/
theorem growLoop_spec {cap need : Nat} (hpos : 0 < cap) (hcap : cap ≤ cstrMaxLen)
    (hneed : need ≤ cstrMaxLen) :
    need ≤ growLoop cap need ∧ cap ≤ growLoop cap need ∧ growLoop cap need ≤ cstrMaxLen := by
  fun_induction growLoop cap need with
  | case1 cap hlt hhalf ih =>
    have := ih (by omega) (by omega)
    omega
  | case2 cap hlt => omega
  | case3 cap hge => omega

theorem cstrGrowCap_spec {current need : Nat} (hcur : current ≤ cstrMaxLen)
    (hneed : need ≤ cstrMaxLen) :
    need ≤ cstrGrowCap current need ∧ current ≤ cstrGrowCap current need ∧
      0 < cstrGrowCap current need ∧ cstrGrowCap current need ≤ cstrMaxLen := by
  have hspec : ∀ cap, 32 ≤ cap → current ≤ cap → cap ≤ cstrMaxLen →
      need ≤ growLoop cap need ∧ current ≤ growLoop cap need ∧ 0 < growLoop cap need ∧
        growLoop cap need ≤ cstrMaxLen := by
    intro cap hlow hge hle
    have := growLoop_spec (by omega : 0 < cap) hle hneed
    omega
  unfold cstrGrowCap cstrMinHeap
  split
  case isTrue hlt => exact hspec 32 le_rfl (by omega) (by decide)
  case isFalse hge => exact hspec current (by omega) le_rfl hcur

theorem Cstr.Holds.length_lt (h : s.Holds xs) : xs.length + 1 ≤ s.mem.length := by
  obtain ⟨rest, hmem⟩ := h.mem
  rw [hmem]
  simp

/-- After a call that returns true the string holds the same and has the room. -/
theorem Cstr.Holds.ensureCap (h : s.Holds xs) (need : Nat) (alloc : Alloc) :
    cstrEnsureCap s need alloc = some (s, false) ∧ (need > cstrMaxLen ∨ alloc = none) ∨
      ∃ s', cstrEnsureCap s need alloc = some (s', true) ∧ s'.Holds xs ∧ need ≤ s'.mem.length ∧
        need ≤ cstrMaxLen := by
  have hroom := h.length_lt
  have hmax := h.described.length_mem_le
  obtain ⟨rest, hmem⟩ := h.mem
  unfold cstrEnsureCap
  by_cases hneed : need > cstrMaxLen
  · exact .inl ⟨if_pos hneed, .inl hneed⟩
  have hneed' : need ≤ cstrMaxLen := Nat.le_of_not_lt hneed
  have hu32 : toU32 need = need := Nat.mod_eq_of_lt (by unfold cstrMaxLen at hneed'; omega)
  rw [if_neg hneed, h.described.isHeap, hu32]
  cases hd : s.data with
  | none =>
    obtain ⟨hcap, hbuf⟩ := (Cstr.described_inline hd).mp h.described
    have hsbuf : s.mem = s.buf := by rw [Cstr.mem, hd, Option.getD_none]
    rw [hsbuf] at hmem hroom
    simp only [Option.isSome_none, if_true]
    split
    case isTrue hsmall =>
      exact .inr ⟨s, rfl, h, by rw [hsbuf, hbuf]; exact hsmall, hneed'⟩
    case isFalse hlarge =>
      cases alloc with
      | none => exact .inl ⟨rfl, .inr rfl⟩
      | some junk =>
        -- the content moves to a heap block
        have hgrow := cstrGrowCap_spec (by decide : cstrSsoCap ≤ cstrMaxLen) hneed'
        generalize cstrGrowCap cstrSsoCap need = cap at hgrow
        have hlen : toU32 (s.length + 1) = xs.length + 1 := by
          rw [h.length]
          exact Nat.mod_eq_of_lt (by unfold cstrMaxLen at hmax; rw [hsbuf] at hmax; omega)
        have hload : load s.buf 0 (xs.length + 1) = some (xs ++ [0]) := by
          rw [load_eq (by omega), hmem, List.drop_zero, ← List.singleton_append,
            ← List.append_assoc,
            List.take_left' (by simp)]
        have hfits : 0 + (xs ++ [0]).length ≤ (extent junk cap).length := by
          rw [length_extent, List.length_append, List.length_singleton]
          omega
        have hstore := store_eq hfits
        have hblock := length_store hstore
        rw [length_extent] at hblock
        simp only [hlen, hload, hstore, Option.bind_eq_bind, Option.bind_some]
        refine .inr ⟨_, rfl, ⟨?_, h.length, ?_⟩, ?_, hneed'⟩
        · exact (Cstr.described_heap rfl).mpr ⟨by rw [hblock], hblock.le.trans hgrow.2.2.2, hbuf⟩
        · refine ⟨(extent junk cap).drop (0 + (xs ++ [0]).length), ?_⟩
          rw [Cstr.mem, Option.getD_some, List.take_zero, List.nil_append, List.append_assoc,
            List.singleton_append]
        · rw [Cstr.mem, Option.getD_some, hblock]
          exact hgrow.1
  | some block =>
    obtain ⟨hcap, hle, hbuf⟩ := (Cstr.described_heap hd).mp h.described
    have hsblock : s.mem = block := by rw [Cstr.mem, hd, Option.getD_some]
    rw [hsblock] at hmem hroom
    simp only [Option.isSome_some, reduceCtorEq, if_false, h.described.heapCap hd]
    split
    case isTrue hsmall => exact .inr ⟨s, rfl, h, by rw [hsblock]; exact hsmall, hneed'⟩
    case isFalse hlarge =>
      have hgrow := cstrGrowCap_spec hle hneed'
      generalize cstrGrowCap block.length need = cap at hgrow
      rw [if_neg (by omega)]
      cases alloc with
      | none => exact .inl ⟨rfl, .inr rfl⟩
      | some junk =>
        have hblock := length_realloc block cap junk
        refine .inr ⟨_, rfl, ⟨?_, h.length, ?_⟩, ?_, hneed'⟩
        · exact (Cstr.described_heap rfl).mpr
            ⟨by rw [hblock], hblock.le.trans hgrow.2.2.2, hbuf⟩
        · refine ⟨(realloc block cap junk).drop (xs.length + 1), ?_⟩
          have htake := take_realloc junk (n := cap) (k := xs.length + 1) (by omega) hroom
          rw [Cstr.mem, Option.getD_some]
          conv_lhs => rw [← List.take_append_drop (xs.length + 1) (realloc block cap junk)]
          rw [htake, hmem, ← List.singleton_append, ← List.append_assoc,
            List.take_left' (by simp), List.append_assoc, List.singleton_append]
        · rw [Cstr.mem, Option.getD_some, hblock]
          exact hgrow.1

/-- With memory the call fails only beyond the greatest size. -/
theorem Cstr.Holds.ensureCap_some (h : s.Holds xs) (need : Nat) (hneed : need ≤ cstrMaxLen)
    (junk : Nat → UInt8) : ∃ s', cstrEnsureCap s need (some junk) = some (s', true) ∧
      s'.Holds xs ∧ need ≤ s'.mem.length := by
  rcases h.ensureCap need (some junk) with ⟨-, hlarge | hnull⟩ | ⟨s', hcap, hs', hroom, -⟩
  · exact absurd hneed (Nat.not_le_of_lt hlarge)
  · cases hnull
  · exact ⟨s', hcap, hs', hroom⟩

end Solidc.Text
