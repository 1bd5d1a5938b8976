import Solidc.Lib.Splitting
import Solidc.Text.Mutators
import Solidc.Text.Search
import Mathlib.Data.List.Forall2

/-! # Splitting, joining and replacing

The functions of `cstr.c` and of `str.h` that look for every occurrence of a string. Both files
have the same loops over other types, so a loop is one definition here that is given how to search,
how to make a token or how to read one.

* `countLoop_eq`, `collectLoop_spec`, `splitLoop_spec`, `removeLoop_spec` — each of them sees the
  occurrences that `pieces` leaves out;
* `split_join_replace` — so they agree with each other.
-/

namespace Solidc.Text

open CLib

/-! ## The code -/

/-- The value of `a - b` of type `size_t`. -/
def subSize (a b : Nat) : Nat := if b ≤ a then a - b else 2 ^ 64 - (b - a)

/-- A search in a fixed string: where it starts and how many bytes it may read. -/
abbrev Search : Type := Nat → Nat → Option (Option Nat)

/-- `memcpy(dst + pos, bytes, n); pos += n;`, left out when there are no bytes. -/
def put (dst : List UInt8) (pos : Nat) (bytes : List UInt8) : Option (List UInt8 × Nat) :=
  if bytes.length = 0 then some (dst, pos)
  else (store dst pos bytes).map (·, pos + bytes.length)

/-- `cstr_new_len(mem + off, n)`. -/
def cstrNewFrom (mem : List UInt8) (off n : Nat) (struct alloc : Alloc) : Option (Option Cstr) := do
  let bytes ← load mem off n
  cstrNewLen (some fun i => bytes.getD i 0) n struct alloc

/-- The loop of `cstr_count_substr`; the first argument bounds its rounds. -/
def countLoop (search : Search) (len nlen : Nat) : Nat → Nat → Nat → Nat → Option Nat
  | 0, _, _, _ => none
  | fuel + 1, p, rem, count => do
    match ← search p rem with
    | none => some count
    | some q =>
      let p := q + nlen
      let rem := subSize len p
      if rem < nlen then some (count + 1) else countLoop search len nlen fuel p rem (count + 1)

def cstrCountSubstr (s : Cstr) (substr : CText) : Option Nat :=
  let nlen := substr.len
  if nlen = 0 ∨ nlen > s.length then some 0
  else
    countLoop (fun p rem => cstrSearch s.mem p rem substr.mem nlen) s.length nlen
      (s.length + 1) 0 s.length 0

/-! ### Replacing -/

/-- `RA_STACK_CAP` and `STR_RA_STACK_CAP`. -/
def raStackCap : Nat := 64

/-- `SIZE_MAX / 2 / sizeof(size_t)`. -/
def raMaxCap : Nat := (2 ^ 64 - 1) / 2 / 8

/-- The table of offsets, which starts on the stack. -/
structure Offsets where
  offs : List Nat
  onStack : Bool

/-- Room for another offset; `heap` is what `malloc` or `realloc` returns. -/
def Offsets.grow (t : Offsets) (count : Nat) (heap : Option (Nat → Nat)) :
    Option (Option Offsets) :=
  if count ≥ t.offs.length then
    if t.offs.length > raMaxCap then some none
    else
      let newCap := t.offs.length * 2
      match heap with
      | none => some none
      | some junk =>
        if t.onStack then do
          let kept ← load t.offs 0 count
          let offs ← store (extent junk newCap) 0 kept
          some (some ⟨offs, false⟩)
        else some (some ⟨realloc t.offs newCap junk, false⟩)
  else some (some t)

/-- The first loop of the replacements: the table and how many offsets it has, or NULL. -/
def collectLoop (search : Search) (len oldLen : Nat) (heap : Nat → Option (Nat → Nat)) :
    Nat → Nat → Nat → Offsets → Nat → Option (Option (List Nat × Nat))
  | 0, _, _, _, _ => none
  | fuel + 1, p, rem, t, count => do
    match ← search p rem with
    | none => some (some (t.offs, count))
    | some q =>
      match ← t.grow count (heap count) with
      | none => some none
      | some t =>
        let offs ← store t.offs count [q]
        let p := q + oldLen
        collectLoop search len oldLen heap fuel p (subSize len p) { t with offs } (count + 1)

/-- The second loop of the replacements, from entry `i` of the table on. -/
def rebuildLoop (hs : List UInt8) (oldLen : Nat) (newSub : List UInt8) (offs : List Nat) :
    Nat → Nat → List UInt8 → Nat → Nat → Option (List UInt8 × Nat × Nat)
  | 0, _, dst, writePos, srcPos => some (dst, writePos, srcPos)
  | k + 1, i, dst, writePos, srcPos => do
    let off ← offs[i]?
    let gap := subSize off srcPos
    let (dst, writePos) ← put dst writePos (← load hs srcPos gap)
    let (dst, writePos) ← put dst writePos newSub
    rebuildLoop hs oldLen newSub offs k (i + 1) dst writePos (off + oldLen)

/-- The new bytes with their NUL, and where it stands. -/
def rebuild (hs : List UInt8) (hlen oldLen : Nat) (newSub : List UInt8) (offs : List Nat)
    (count : Nat) (dst : List UInt8) : Option (List UInt8 × Nat) := do
  let (dst, writePos, srcPos) ← rebuildLoop hs oldLen newSub offs count 0 dst 0 0
  let tail := subSize hlen srcPos
  let (dst, writePos) ← put dst writePos (← load hs srcPos tail)
  let dst ← store dst writePos [0]
  some (dst, writePos)

/-- The length of the result. -/
def resultLen (hlen oldLen newLen count : Nat) : Nat :=
  if newLen ≥ oldLen then toSize (hlen + toSize (count * (newLen - oldLen)))
  else subSize hlen (toSize (count * (oldLen - newLen)))

/-- `cstr_replace_all`. `stack` is what the table on the stack holds before it is written to,
`heap` what the allocations of a larger table return. -/
def cstrReplaceAll (s : Cstr) (oldSub newSub : CText) (stack : Nat → Nat)
    (heap : Nat → Option (Nat → Nat)) (struct alloc : Alloc) : Option (Option Cstr) :=
  let oldLen := oldSub.len
  if oldLen = 0 then cstrNewFrom s.mem 0 s.length struct alloc
  else do
    let newLen := newSub.len
    let hlen := s.length
    match ← collectLoop (fun p rem => cstrSearch s.mem p rem oldSub.mem oldLen) hlen oldLen heap
        (hlen + 1) 0 hlen ⟨extent stack raStackCap, true⟩ 0 with
    | none => some none
    | some (offs, count) =>
      if count = 0 then cstrNewFrom s.mem 0 hlen struct alloc
      else
        match ← cstrInit (resultLen hlen oldLen newLen count) struct alloc with
        | none => some none
        | some r =>
          let (dst, writePos) ← rebuild s.mem hlen oldLen newSub.bytes offs count r.mem
          some (some { r.setMem dst with length := toU32 writePos })

/-- `str_dup`. -/
def strDup (str : CText) (alloc : Alloc) : Option (Option (List UInt8)) :=
  let len := toSize (str.len + 1)
  match alloc with
  | none => some none
  | some junk => do
    let bytes ← load str.mem 0 len
    (store (extent junk len) 0 bytes).map some

/-- `str_replace_all`. -/
def strReplaceAll (str oldSub newSub : Option CText) (stack : Nat → Nat)
    (heap : Nat → Option (Nat → Nat)) (alloc : Alloc) : Option (Option (List UInt8)) :=
  match str with
  | none => some none
  | some str =>
    let hlen := str.len
    match oldSub, newSub with
    | some oldSub, some newSub =>
      let oldLen := oldSub.len
      if oldLen = 0 then strDup str alloc
      else do
        let newLen := newSub.len
        match ← collectLoop (fun p rem => strSearchImpl str.mem p rem oldSub.mem oldLen) hlen oldLen
            heap (hlen + 1) 0 hlen ⟨extent stack raStackCap, true⟩ 0 with
        | none => some none
        | some (offs, count) =>
          if count = 0 then strDup str alloc
          else
            match alloc with
            | none => some none
            | some junk =>
              let r := extent junk (toSize (resultLen hlen oldLen newLen count + 1))
              let (r, _) ← rebuild str.mem hlen oldLen newSub.bytes offs count r
              some (some r)
    | _, _ => strDup str alloc

/-! ### Splitting -/

variable {α : Type}

/-- The loop of the splitting functions. `slack` is how many slots stay free behind a token,
`array` what the allocations of the array return, `token i start n` makes token `i` of `n` bytes
from `start` on. -/
def splitLoop (search : Search) (len dlen slack : Nat) (array : Nat → Option (Nat → Option α))
    (token : Nat → Nat → Nat → Option (Option α)) :
    Nat → Nat → List (Option α) → Nat → Option (Option (List (Option α) × Nat))
  | 0, _, _, _ => none
  | fuel + 1, start, result, count => do
    let found ← search start (subSize len start)
    let tokEnd := found.getD len
    let grown := if count + slack ≥ result.length then
        (array count).map (realloc result (result.length * 2))
      else some result
    match grown with
    | none => some none
    | some result =>
      match ← token count start (subSize tokEnd start) with
      | none => some none
      | some tok =>
        let result ← store result count [some tok]
        match found with
        | none => some (some (result, count + 1))
        | some q => splitLoop search len dlen slack array token fuel (q + dlen) result (count + 1)

/-- `cstr_split`: the array and `*count_out`. `array i` is what the allocation of the array
returns when it has `i` tokens, `struct i` and `alloc i` are those of token `i`. -/
def cstrSplit (s : Cstr) (delim : Option CText) (array : Nat → Option (Nat → Option Cstr))
    (struct alloc : Nat → Alloc) : Option (Option (List (Option Cstr) × Nat)) :=
  match delim with
  | none => single
  | some delim =>
    if delim.len = 0 then single
    else
      match array 0 with
      | none => some none
      | some slots =>
        splitLoop (fun p rem => cstrSearch s.mem p rem delim.mem delim.len) s.length delim.len 0
          array (fun i start n => cstrNewFrom s.mem start n (struct i) (alloc i)) (s.length + 1) 0
          (extent slots 8) 0
where
  /-- The array of the whole string. -/
  single : Option (Option (List (Option Cstr) × Nat)) :=
    match array 0 with
    | none => some none
    | some _ => do
      match ← cstrNewFrom s.mem 0 s.length (struct 0) (alloc 0) with
      | none => some none
      | some tok => some (some ([some tok], 1))

/-- A token of `str_split`. -/
def strToken (mem : List UInt8) (start n : Nat) (alloc : Alloc) : Option (Option (List UInt8)) :=
  match alloc with
  | none => some none
  | some junk => do
    let bytes ← load mem start n
    let block ← store (extent junk (toSize (n + 1))) 0 bytes
    (store block n [0]).map some

/-- `str_split`, whose array ends with NULL. -/
def strSplit (str delim : Option CText) (array : Nat → Option (Nat → Option (List UInt8)))
    (alloc : Nat → Alloc) : Option (Option (List (Option (List UInt8)) × Nat)) :=
  match str with
  | none => some none
  | some str =>
    match delim with
    | none => single str
    | some delim =>
      if delim.len = 0 then single str
      else
        match array 0 with
        | none => some none
        | some slots => do
          match ← splitLoop (fun p rem => strSearchImpl str.mem p rem delim.mem delim.len) str.len
              delim.len 1 array (fun i start n => strToken str.mem start n (alloc i)) (str.len + 1)
              0 (extent slots 8) 0 with
          | none => some none
          | some (result, count) => (store result count [none]).map fun r => some (r, count)
where
  /-- The array of the whole string. -/
  single (str : CText) : Option (Option (List (Option (List UInt8)) × Nat)) :=
    match array 0 with
    | none => some none
    | some _ => do
      match ← strDup str (alloc 0) with
      | none => some none
      | some tok => some (some ([some tok, none], 1))

/-! ### Joining -/

/-- The first loop of the joining functions: the length of the result, or NULL if there is no
string in a slot. -/
def totalLoop (strings : List (Option α)) (count dlen : Nat) (len : α → Option Nat) :
    Nat → Nat → Nat → Option (Option Nat)
  | 0, _, total => some (some total)
  | k + 1, i, total => do
    match ← strings[i]? with
    | none => some none
    | some str =>
      let total := toSize (total + (← len str))
      totalLoop strings count dlen len k (i + 1)
        (if i + 1 < count then toSize (total + dlen) else total)

/-- The second loop of the joining functions. -/
def joinLoop (strings : List (Option α)) (count : Nat) (delim : List UInt8)
    (text : α → Option (List UInt8)) : Nat → Nat → List UInt8 → Nat → Option (List UInt8 × Nat)
  | 0, _, dst, pos => some (dst, pos)
  | k + 1, i, dst, pos => do
    let str ← (← strings[i]?)
    let (dst, pos) ← put dst pos (← text str)
    let (dst, pos) ← put dst pos (if i + 1 < count then delim else [])
    joinLoop strings count delim text k (i + 1) dst pos

/-- The bytes of the delimiter, which may be NULL. -/
def delimBytes (delim : Option CText) : List UInt8 := delim.elim [] (·.bytes)

/-- `cstr_join`. -/
def cstrJoin (strings : Option (List (Option Cstr))) (count : Nat) (delim : Option CText)
    (struct alloc : Alloc) : Option (Option Cstr) :=
  match strings, count with
  | none, _ | _, 0 => cstrNewFrom [0] 0 0 struct alloc
  | some strings, count => do
    match ← totalLoop strings count (delimBytes delim).length (fun c => some c.length)
        count 0 0 with
    | none => some none
    | some total =>
      match ← cstrInit total struct alloc with
      | none => some none
      | some r =>
        let (d, pos) ← joinLoop strings count (delimBytes delim) (fun c => load c.mem 0 c.length)
          count 0 r.mem 0
        let d ← store d pos [0]
        some (some { r.setMem d with length := toU32 pos })

/-- `strlen`. -/
def strlen (mem : List UInt8) : Option Nat := mem.idxOf? 0

/-- `str_join`. -/
def strJoin (strings : Option (List (Option (List UInt8)))) (count : Nat) (delim : Option CText)
    (alloc : Alloc) : Option (Option (List UInt8)) :=
  match strings, count with
  | none, _ | _, 0 =>
    match alloc with
    | none => some none
    | some junk => (store (extent junk 1) 0 [0]).map some
  | some strings, count => do
    match ← totalLoop strings count (delimBytes delim).length strlen count 0 0 with
    | none => some none
    | some total =>
      match alloc with
      | none => some none
      | some junk =>
        let (r, pos) ← joinLoop strings count (delimBytes delim)
          (fun str => do load str 0 (← strlen str)) count 0 (extent junk (toSize (total + 1))) 0
        (store r pos [0]).map some

/-! ### Removing -/

/-- The loop of `cstr_remove_all` and `str_remove_all`. `test` says whether the needle stands at
`r`, and nothing at the end of the string. -/
def removeLoop (test : List UInt8 → Nat → Option (Option Bool)) (subLen : Nat) :
    Nat → List UInt8 → Nat → Nat → Nat → Option (List UInt8 × Nat × Nat)
  | 0, _, _, _, _ => none
  | fuel + 1, mem, w, r, count => do
    match ← test mem r with
    | none => some (mem, w, count)
    | some true => removeLoop test subLen fuel mem w (r + subLen) (count + 1)
    | some false =>
      let c ← mem[r]?
      let mem ← store mem w [c]
      removeLoop test subLen fuel mem (w + 1) (r + 1) count

/-- The tests of `cstr_remove_all`, where the string ends at `last`. -/
def cstrRemoveTest (sub : List UInt8) (subLen last : Nat) (mem : List UInt8) (r : Nat) :
    Option (Option Bool) :=
  if r < last then
    let rem := subSize last r
    if rem ≥ subLen then (memcmpEq mem r sub 0 subLen).map some else some (some false)
  else some none

/-- `cstr_remove_all`, with the number that it returns. -/
def cstrRemoveAll (s : Cstr) (substr : CText) : Option (Cstr × Nat) :=
  if substr.len = 0 then some (s, 0)
  else do
    let (mem, w, count) ← removeLoop (cstrRemoveTest substr.mem substr.len s.length) substr.len
      (s.length + 1) s.mem 0 0 0
    let mem ← store mem w [0]
    some ({ s.setMem mem with length := toU32 w }, count)

/-- `strncmp(p + i, q + j, n) == 0`. -/
def strncmpEq (p : List UInt8) (i : Nat) (q : List UInt8) (j : Nat) : Nat → Option Bool
  | 0 => some true
  | n + 1 => do
    let a ← p[i]?
    let b ← q[j]?
    if a ≠ b then some false
    else if a = 0 then some true
    else strncmpEq p (i + 1) q (j + 1) n

/-- The tests of `str_remove_all`. -/
def strRemoveTest (sub : List UInt8) (subLen : Nat) (mem : List UInt8) (r : Nat) :
    Option (Option Bool) := do
  let c ← mem[r]?
  if c = 0 then some none else (strncmpEq mem r sub 0 subLen).map some

/-- `str_remove_all` in a block, with the number that it returns. -/
def strRemoveAll (str : Option (List UInt8)) (substr : Option CText) :
    Option (Option (List UInt8) × Nat) :=
  match str, substr with
  | some str, some substr =>
    if substr.len = 0 then some (some str, 0)
    else do
      let (mem, w, count) ← removeLoop (strRemoveTest substr.mem substr.len) substr.len
        (str.length + 1) str 0 0 0
      let mem ← store mem w [0]
      some (some mem, count)
  | str, _ => some (str, 0)

/-! ## Occurrences -/

section Occurrences

variable {search : Search} {d xs : List UInt8}

/-- The search finds the first occurrence of `d` in what is left of `xs`. -/
def Finds (search : Search) (d xs : List UInt8) : Prop :=
  ∀ p ≤ xs.length, search p (xs.length - p) = some ((findSub d (xs.drop p)).map (p + ·))

theorem searchImpl_finds (hd : d ≠ []) (rest post : List UInt8) :
    Finds (fun p rem => searchImpl (xs ++ rest) p rem (d ++ post) d.length) d xs := by
  intro p hp
  have hwin : ((xs ++ rest).drop p).take (xs.length - p) = xs.drop p := by
    rw [List.drop_append_of_le_length hp, List.take_left' List.length_drop]
  dsimp only
  rw [searchImpl_eq hd (by rw [List.length_append]; omega), hwin]

theorem subSize_eq {a b : Nat} (hb : b ≤ a) : subSize a b = a - b := if_pos hb

/-- One round of a loop: the rest is the last part, or a part ends at the place that is found. -/
theorem Finds.cases (hfind : Finds search d xs) (hd : d ≠ []) {p : Nat} (hp : p ≤ xs.length) :
    (search p (xs.length - p) = some none ∧ pieces d (xs.drop p) = [xs.drop p]) ∨
      ∃ l, search p (xs.length - p) = some (some (p + l.length)) ∧
        p + l.length + d.length ≤ xs.length ∧
        xs.drop p = l ++ (d ++ xs.drop (p + l.length + d.length)) ∧
        pieces d (xs.drop p) = l :: pieces d (xs.drop (p + l.length + d.length)) := by
  rcases pieces_cases hd (xs.drop p) with ⟨hnone, hp'⟩ | ⟨i, hsome, hfits, hp'⟩
  · exact .inl ⟨by rw [hfind p hp, hnone]; rfl, hp'⟩
  · have hlen : ((xs.drop p).take i).length = i := by
      rw [List.length_take]
      omega
    rw [List.length_drop] at hfits
    refine .inr ⟨(xs.drop p).take i, ?_, ?_, ?_, ?_⟩
    · rw [hfind p hp, hsome, hlen]
      rfl
    · omega
    · rw [hlen, Nat.add_assoc, ← List.drop_drop]
      exact findSub_split hsome
    · rw [hlen, Nat.add_assoc, ← List.drop_drop]
      exact hp'

theorem countLoop_eq (hfind : Finds search d xs) (hd : d ≠ []) {fuel p : Nat} (count : Nat)
    (hp : p ≤ xs.length) (hfuel : xs.length - p < fuel) :
    countLoop search xs.length d.length fuel p (xs.length - p) count =
      some (count + ((pieces d (xs.drop p)).length - 1)) := by
  have hpos : 0 < d.length := List.length_pos_iff.mpr hd
  induction fuel generalizing p count with
  | zero => exact absurd hfuel (Nat.not_lt_zero _)
  | succ fuel ih =>
    rw [countLoop]
    rcases hfind.cases hd hp with ⟨hnone, hparts⟩ | ⟨l, hsome, hfits, -, hparts⟩
    · rw [hnone, hparts]
      rfl
    · rw [hsome, hparts]
      simp only [Option.bind_eq_bind, Option.bind_some, subSize_eq hfits, List.length_cons,
        Nat.add_sub_cancel]
      split
      case isTrue hshort =>
        -- the loop leaves early when the rest is too short for another occurrence
        rw [pieces_of_short (by rw [List.length_drop]; omega)]
        rfl
      case isFalse =>
        have hmore := List.length_pos_iff.mpr
          (pieces_ne_nil hd (xs.drop (p + l.length + d.length)))
        rw [ih (count + 1) hfits (by omega)]
        congr 1
        omega

theorem put_append (out room bytes : List UInt8) (h : bytes.length ≤ room.length) :
    put (out ++ room) out.length bytes =
      some (out ++ bytes ++ room.drop bytes.length, (out ++ bytes).length) := by
  unfold put
  split
  case isTrue hzero =>
    rw [List.length_eq_zero_iff.mp hzero]
    simp
  case isFalse =>
    rw [store_append h, Option.map_some, List.append_assoc, List.length_append]

/-- There is room for another offset afterwards. -/
theorem Offsets.grow_spec {t : Offsets} {acc room : List Nat} (ht : t.offs = acc ++ room)
    (hpos : 0 < t.offs.length) (hcount : acc.length ≤ raMaxCap) (junk : Nat → Nat) :
    ∃ t' x room', t.grow acc.length (some junk) = some (some t') ∧
      t'.offs = acc ++ x :: room' := by
  suffices ∃ t' room', t.grow acc.length (some junk) = some (some t') ∧ t'.offs = acc ++ room' ∧
      0 < room'.length by
    obtain ⟨t', room', hgrow, ht', hroom⟩ := this
    obtain ⟨x, room'', rfl⟩ := List.exists_cons_of_length_pos hroom
    exact ⟨t', x, room'', hgrow, ht'⟩
  unfold grow
  split
  case isFalse hroom =>
    refine ⟨t, room, rfl, ht, ?_⟩
    rw [ht, List.length_append] at hroom
    omega
  case isTrue hfull =>
    obtain rfl : room = [] := by
      rw [ht, List.length_append] at hfull
      exact List.length_eq_zero_iff.mp (by omega)
    rw [List.append_nil] at ht
    rw [ht] at hpos ⊢
    rw [if_neg (Nat.not_lt_of_le hcount)]
    dsimp only
    split
    case isTrue =>
      -- from the stack to the heap
      have hload : load acc 0 acc.length = some acc := by
        rw [load_eq (by omega), List.drop_zero, List.take_length]
      have hfits : 0 + acc.length ≤ (extent junk (acc.length * 2)).length := by
        rw [length_extent]
        omega
      have hstore := store_eq hfits
      rw [hload]
      simp only [Option.bind_eq_bind, Option.bind_some, hstore, List.take_zero, List.nil_append]
      refine ⟨_, _, rfl, rfl, ?_⟩
      rw [List.length_drop, length_extent]
      omega
    case isFalse =>
      refine ⟨_, extent junk (acc.length * 2 - acc.length), rfl, ?_, ?_⟩
      · rw [realloc, List.take_of_length_le (by omega)]
      · rw [length_extent]
        omega

/-- The table has the place of every occurrence. -/
theorem collectLoop_spec (hfind : Finds search d xs) (hd : d ≠ []) (hxs : xs.length ≤ raMaxCap)
    (junk : Nat → Nat → Nat) {fuel p : Nat} (t : Offsets) (acc room : List Nat)
    (ht : t.offs = acc ++ room) (hpos : 0 < t.offs.length) (hacc : acc.length ≤ p)
    (hp : p ≤ xs.length) (hfuel : xs.length - p < fuel) :
    ∃ slack, collectLoop search xs.length d.length (fun i => some (junk i)) fuel p
      (xs.length - p) t acc.length =
        some (some (acc ++ (cuts d.length p (pieces d (xs.drop p)) ++ slack),
          acc.length + ((pieces d (xs.drop p)).length - 1))) := by
  have hlen : 0 < d.length := List.length_pos_iff.mpr hd
  induction fuel generalizing p t acc room with
  | zero => exact absurd hfuel (Nat.not_lt_zero _)
  | succ fuel ih =>
    rw [collectLoop]
    rcases hfind.cases hd hp with ⟨hnone, hparts⟩ | ⟨l, hsome, hfits, -, hparts⟩
    · rw [hnone, hparts, ht]
      exact ⟨room, rfl⟩
    · obtain ⟨t', x, room', hgrow, ht'⟩ := Offsets.grow_spec ht hpos (by omega) (junk acc.length)
      have hstore := store_slot acc x (p + l.length) room'
      have hnext := pieces_ne_nil hd (xs.drop (p + l.length + d.length))
      have hmore := List.length_pos_iff.mpr hnext
      rw [hsome]
      simp only [Option.bind_eq_bind, Option.bind_some, hgrow, ht', hstore, subSize_eq hfits]
      obtain ⟨slack, hrun⟩ := ih
        { t' with offs := acc ++ [p + l.length] ++ room' } (acc ++ [p + l.length]) room' rfl
        (by simp only [List.length_append, List.length_singleton]; omega)
        (by simp only [List.length_append, List.length_singleton]; omega) hfits (by omega)
      rw [List.length_append, List.length_singleton] at hrun
      refine ⟨slack, ?_⟩
      rw [hrun, hparts, cuts_cons hnext, List.append_assoc, List.singleton_append,
        List.cons_append, List.length_cons]
      congr 3
      omega

/-! ## Rebuilding -/

/-- The loop copies all parts but the last one, each with the new string behind it. -/
theorem rebuildLoop_spec {d ys : List UInt8} (n rest : List UInt8) {ps : List (List UInt8)}
    {offs : List Nat} (done later : List Nat) (out room : List UInt8) {srcPos : Nat}
    (hps : ps ≠ []) (hsrc : srcPos ≤ ys.length) (hys : ys.drop srcPos = d.intercalate ps)
    (hoffs : offs = done ++ (cuts d.length srcPos ps ++ later))
    (hroom : (n.intercalate ps).length ≤ room.length) :
    ∃ pre last room' srcPos', n.intercalate ps = pre ++ last ∧
      rebuildLoop (ys ++ rest) d.length n offs (ps.length - 1) done.length (out ++ room) out.length
        srcPos = some (out ++ pre ++ room', (out ++ pre).length, srcPos') ∧
      srcPos' ≤ ys.length ∧ ys.drop srcPos' = last ∧
      pre.length + room'.length = room.length := by
  induction ps generalizing done out room srcPos with
  | nil => exact absurd rfl hps
  | cons l ps ih =>
    cases ps with
    | nil =>
      refine ⟨[], l, room, srcPos, List.intercalate_singleton, ?_, hsrc, ?_, by simp⟩
      · rw [List.append_nil]
        rfl
      · rw [hys, List.intercalate_singleton]
    | cons q ps =>
      have hne := List.cons_ne_nil q ps
      rw [intercalate_cons hne] at hys hroom
      rw [cuts_cons hne] at hoffs
      simp only [List.length_append] at hroom
      have hlen := congrArg List.length hys
      simp only [List.length_drop, List.length_append] at hlen
      -- the gap, the new string, and then the parts behind them
      have hoff : offs[done.length]? = some (srcPos + l.length) := by
        rw [hoffs, List.getElem?_append_right le_rfl, Nat.sub_self]
        rfl
      have hgap : subSize (srcPos + l.length) srcPos = l.length := by
        rw [subSize_eq (Nat.le_add_right _ _), Nat.add_sub_cancel_left]
      have hload : load (ys ++ rest) srcPos l.length = some l := by
        rw [load_eq (by rw [List.length_append]; omega), List.drop_append_of_le_length hsrc, hys,
          List.append_assoc, List.take_left]
      have hput := put_append out room l (by omega)
      have hput' := put_append (out ++ l) (room.drop l.length) n (by rw [List.length_drop]; omega)
      have hrest : ys.drop (srcPos + l.length + d.length) = d.intercalate (q :: ps) := by
        rw [← List.drop_drop, ← List.drop_drop, hys, List.drop_left, List.drop_left]
      obtain ⟨pre, last, room', srcPos', hjoin, hrun, hle, hlast, htotal⟩ :=
        ih (done ++ [srcPos + l.length]) (out ++ l ++ n)
          ((room.drop l.length).drop n.length) hne (by omega) hrest
          (by rw [hoffs]; simp) (by simp only [List.length_drop]; omega)
      refine ⟨l ++ (n ++ pre), last, room', srcPos', ?_, ?_, hle, hlast, ?_⟩
      · rw [intercalate_cons hne, hjoin]
        simp
      · rw [List.length_append, List.length_singleton] at hrun
        simp only [List.length_cons, Nat.add_sub_cancel] at hrun ⊢
        rw [rebuildLoop, hoff]
        simp only [Option.bind_eq_bind, Option.bind_some, hgap, hload, hput, hput']
        rw [hrun]
        simp
      · simp only [List.length_append, List.length_drop] at htotal ⊢
        omega

/-- The block holds the parts with the new string between them. -/
theorem rebuild_spec {d ys : List UInt8} (n rest : List UInt8) {ps : List (List UInt8)}
    (later : List Nat) (room : List UInt8) (hps : ps ≠ []) (hys : ys = d.intercalate ps)
    (hroom : (n.intercalate ps).length < room.length) :
    ∃ dst, rebuild (ys ++ rest) ys.length d.length n (cuts d.length 0 ps ++ later)
        (ps.length - 1) room = some (dst, (n.intercalate ps).length) ∧
      dst.length = room.length ∧ ∃ rest', dst = n.intercalate ps ++ 0 :: rest' := by
  obtain ⟨pre, last, room', srcPos, hjoin, hrun, hle, hlast, htotal⟩ :=
    rebuildLoop_spec n rest [] later [] room hps (Nat.zero_le _) hys rfl (Nat.le_of_lt hroom)
  simp only [List.nil_append, List.length_nil] at hrun
  have hlen : last.length = ys.length - srcPos := by rw [← hlast, List.length_drop]
  have hload : load (ys ++ rest) srcPos (ys.length - srcPos) = some last := by
    rw [load_eq (by rw [List.length_append]; omega), List.drop_append_of_le_length hle, hlast,
      ← hlen, List.take_left]
  rw [hjoin, List.length_append] at hroom
  have hput := put_append pre room' last (by omega)
  obtain ⟨x, room'', htail⟩ := List.exists_cons_of_length_pos
    (l := room'.drop last.length) (by rw [List.length_drop]; omega)
  rw [htail] at hput
  have hnul := store_slot (pre ++ last) x 0 room''
  refine ⟨pre ++ last ++ [0] ++ room'', ?_, ?_, room'', ?_⟩
  · rw [rebuild, hrun]
    simp only [Option.bind_eq_bind, Option.bind_some, subSize_eq hle, hload, hput, hnul, hjoin]
  · have hcount := congrArg List.length htail
    simp only [List.length_append, List.length_drop, List.length_cons, List.length_nil] at hcount ⊢
    omega
  · rw [hjoin, List.append_assoc]
    rfl

theorem flatten_pieces_cons {a : UInt8} {ys : List UInt8} (hd : d ≠ []) (h : ¬ d <+: a :: ys) :
    (pieces d (a :: ys)).flatten = a :: (pieces d ys).flatten ∧
      (pieces d (a :: ys)).length = (pieces d ys).length := by
  rw [pieces_cons hd h]
  cases hp : pieces d ys with
  | nil => exact absurd hp (pieces_ne_nil hd ys)
  | cons l ps => exact ⟨rfl, rfl⟩

/-- What a loop of the removals may expect of its test on a string of `len` bytes. -/
def Tests (test : List UInt8 → Nat → Option (Option Bool)) (d : List UInt8) (len : Nat) : Prop :=
  ∀ pre ys rest, pre.length + ys.length = len → (0 : UInt8) ∉ ys →
    test (pre ++ (ys ++ 0 :: rest)) pre.length =
      some (if ys = [] then none else some (decide (d <+: ys)))

/-- The loop leaves the parts one behind the other. -/
theorem removeLoop_spec {test : List UInt8 → Nat → Option (Option Bool)} {len : Nat}
    (htest : Tests test d len) (hd : d ≠ []) {fuel : Nat} (count : Nat)
    (out mid ys rest : List UInt8)
    (hlen : (out ++ mid).length + ys.length = len) (hnul : (0 : UInt8) ∉ ys)
    (hfuel : ys.length < fuel) :
    ∃ x room, removeLoop test d.length fuel (out ++ mid ++ (ys ++ 0 :: rest)) out.length
        (out ++ mid).length count =
      some (out ++ (pieces d ys).flatten ++ x :: room, (out ++ (pieces d ys).flatten).length,
        count + ((pieces d ys).length - 1)) ∧
      (out ++ (pieces d ys).flatten ++ x :: room).length =
        (out ++ mid ++ (ys ++ 0 :: rest)).length := by
  induction fuel generalizing count out mid ys with
  | zero => exact absurd hfuel (Nat.not_lt_zero _)
  | succ fuel ih =>
    rw [removeLoop, htest (out ++ mid) ys rest hlen hnul]
    cases ys with
    | nil =>
      obtain ⟨x, room, hroom⟩ := List.exists_cons_of_ne_nil (l := mid ++ 0 :: rest) (by simp)
      refine ⟨x, room, ?_, ?_⟩
      · rw [if_pos rfl, pieces_nil hd, ← hroom]
        simp
      · rw [pieces_nil hd, ← hroom]
        simp
    | cons a ys =>
      rw [if_neg (List.cons_ne_nil a ys)]
      by_cases hpre : d <+: a :: ys
      · -- an occurrence is passed over
        rw [pieces_prefixed hd hpre, decide_eq_true hpre]
        obtain ⟨zs, hzs⟩ := hpre
        have hrest : (a :: ys).drop d.length = zs := by rw [← hzs, List.drop_left]
        have hpos := List.length_pos_iff.mpr hd
        have hcount := congrArg List.length hzs
        rw [List.length_append] at hcount
        rw [← hzs] at hnul
        obtain ⟨x, room, hrun, hsame⟩ := ih (count + 1) out (mid ++ d) zs
          (by simp only [List.length_append] at hlen ⊢; omega)
          (fun h => hnul (List.mem_append_right d h)) (by omega)
        have hmem : out ++ (mid ++ d) ++ (zs ++ 0 :: rest) =
            out ++ mid ++ (a :: ys ++ 0 :: rest) := by
          rw [← hzs]
          simp
        have hr : (out ++ (mid ++ d)).length = (out ++ mid).length + d.length := by
          simp only [List.length_append, Nat.add_assoc]
        rw [hmem] at hrun hsame
        rw [hr] at hrun
        refine ⟨x, room, ?_, ?_⟩
        · rw [hrest, List.flatten_cons, List.nil_append, List.length_cons, Nat.add_sub_cancel]
          simp only [Option.bind_eq_bind, Option.bind_some]
          rw [hrun]
          have hmore := List.length_pos_iff.mpr (pieces_ne_nil hd zs)
          congr 3
          omega
        · rw [hrest, List.flatten_cons, List.nil_append]
          exact hsame
      · -- a byte is kept
        obtain ⟨hflat, hcount⟩ := flatten_pieces_cons hd hpre
        rw [hflat, hcount, decide_eq_false hpre]
        have hget : (out ++ mid ++ (a :: ys ++ 0 :: rest))[(out ++ mid).length]? = some a := by
          rw [List.getElem?_append_right le_rfl, Nat.sub_self]
          rfl
        obtain ⟨y, mid', hmid⟩ := List.exists_cons_of_ne_nil (l := mid ++ [a]) (by simp)
        have hsplit : out ++ mid ++ (a :: ys ++ 0 :: rest) =
            out ++ y :: (mid' ++ (ys ++ 0 :: rest)) := by
          rw [← List.cons_append, ← hmid]
          simp
        have hstore : store (out ++ mid ++ (a :: ys ++ 0 :: rest)) out.length [a] =
            some (out ++ [a] ++ mid' ++ (ys ++ 0 :: rest)) := by
          rw [hsplit, store_slot, List.append_assoc (out ++ [a])]
        have hmidlen := congrArg List.length hmid
        simp only [List.length_append, List.length_cons, List.length_nil] at hmidlen
        obtain ⟨x, room, hrun, hsame⟩ := ih count (out ++ [a]) mid' ys
          (by
            simp only [List.length_append, List.length_cons, List.length_nil] at hlen ⊢
            omega)
          (fun h => hnul (List.mem_cons_of_mem a h)) (Nat.lt_of_succ_lt_succ hfuel)
        have hw : (out ++ [a]).length = out.length + 1 := by simp
        have hr : (out ++ [a] ++ mid').length = (out ++ mid).length + 1 := by
          simp only [List.length_append, List.length_cons, List.length_nil]
          omega
        rw [hw, hr] at hrun
        refine ⟨x, room, ?_, ?_⟩
        · simp only [Option.bind_eq_bind, Option.bind_some, hget, hstore]
          rw [hrun]
          simp
        · rw [hsplit]
          simp only [List.length_append, List.length_cons, List.length_nil] at hsame ⊢
          omega

end Occurrences

/-! ## Arrays of strings -/

section Arrays

variable (holds : α → List UInt8 → Prop) {search : Search} {d xs : List UInt8}

/-- The array has a string for each text, which may be followed by other slots. -/
def Slots (strings : List (Option α))
    (ps : List (List UInt8)) : Prop :=
  ∃ ts room, strings = ts.map some ++ room ∧ List.Forall₂ holds ts ps

/-- A token is made of every part. -/
theorem splitLoop_spec (hfind : Finds search d xs) (hd : d ≠ [])
    (slots : Nat → Nat → Option α) {token : Nat → Nat → Nat → Option (Option α)}
    (htoken : ∀ i start n, start + n ≤ xs.length →
      ∃ t, token i start n = some (some t) ∧ holds t ((xs.drop start).take n))
    (slack : Nat) {fuel start : Nat} (ts : List α) (room : List (Option α))
    (hslack : slack ≤ room.length)
    (hpos : 0 < (ts.map some ++ room).length) (hstart : start ≤ xs.length)
    (hfuel : xs.length - start < fuel) :
    ∃ ts' room', splitLoop search xs.length d.length slack (fun i => some (slots i)) token fuel
        start (ts.map some ++ room) ts.length =
      some (some ((ts ++ ts').map some ++ room', ts.length + ts'.length)) ∧
      List.Forall₂ holds ts' (pieces d (xs.drop start)) ∧ slack ≤ room'.length := by
  induction fuel generalizing start ts room with
  | zero => exact absurd hfuel (Nat.not_lt_zero _)
  | succ fuel ih =>
    -- a free slot and those that stay free behind it
    obtain ⟨y, room', hgrown, hslack'⟩ : ∃ y room',
        (if ts.length + slack ≥ (ts.map some ++ room).length then
          some (realloc (ts.map some ++ room) ((ts.map some ++ room).length * 2) (slots ts.length))
        else some (ts.map some ++ room)) = some (ts.map some ++ y :: room') ∧
          slack ≤ room'.length := by
      rw [List.length_append, List.length_map] at hpos ⊢
      split
      case isTrue hfull =>
        obtain ⟨y, room', hroom⟩ := List.exists_cons_of_length_pos (l := room ++
          extent (slots ts.length) ((ts.length + room.length) * 2 - (ts.length + room.length)))
          (by rw [List.length_append, length_extent]; omega)
        have hcount := congrArg List.length hroom
        rw [List.length_append, length_extent, List.length_cons] at hcount
        refine ⟨y, room', ?_, by omega⟩
        rw [realloc, List.take_of_length_le (by rw [List.length_append, List.length_map]; omega),
          List.length_append, List.length_map, List.append_assoc, hroom]
      case isFalse hfree =>
        obtain ⟨y, room', rfl⟩ := List.exists_cons_of_length_pos (l := room) (by omega)
        rw [List.length_cons] at hfree
        exact ⟨y, room', rfl, by omega⟩
    have hstore : ∀ t, store (ts.map some ++ y :: room') ts.length [some t] =
        some ((ts ++ [t]).map some ++ room') := by
      intro t
      have := store_slot (ts.map some) y (some t) room'
      rwa [List.length_map, ← List.map_singleton, ← List.map_append] at this
    rw [splitLoop]
    rcases hfind.cases hd hstart with ⟨hnone, hparts⟩ | ⟨l, hsome, hfits, hsplit, hparts⟩
    · obtain ⟨t, htok, ht⟩ := htoken ts.length start (xs.length - start) (by omega)
      rw [List.take_of_length_le (by rw [List.length_drop])] at ht
      rw [subSize_eq hstart, hnone, hparts]
      simp only [Option.bind_eq_bind, Option.bind_some, Option.map_some, hgrown, Option.getD_none,
        subSize_eq hstart, htok, hstore]
      exact ⟨[t], room', rfl, .cons ht .nil, hslack'⟩
    · obtain ⟨t, htok, ht⟩ := htoken ts.length start l.length (by omega)
      rw [hsplit, List.take_left] at ht
      have hlen : subSize (start + l.length) start = l.length := by
        rw [subSize_eq (Nat.le_add_right _ _), Nat.add_sub_cancel_left]
      obtain ⟨ts', room'', hrun, hall, hend⟩ := ih (ts ++ [t]) room' hslack'
        (by simp only [List.length_append, List.length_map, List.length_singleton]; omega)
        hfits (by have := List.length_pos_iff.mpr hd; omega)
      rw [List.length_append, List.length_singleton] at hrun
      rw [subSize_eq hstart, hsome, hparts]
      simp only [Option.bind_eq_bind, Option.bind_some, Option.map_some, hgrown, Option.getD_some,
        hlen, htok, hstore]
      refine ⟨t :: ts', room'', ?_, .cons ht hall, hend⟩
      rw [hrun, List.append_assoc, List.singleton_append, List.length_cons, Nat.add_assoc,
        Nat.add_comm 1]

/-- The delimiter stands behind every part but the last one. -/
theorem intercalate_cons_if (l : List UInt8) (ps : List (List UInt8)) :
    d.intercalate (l :: ps) = l ++ ((if 0 < ps.length then d else []) ++ d.intercalate ps) := by
  cases ps with
  | nil => simp
  | cons q ps =>
    rw [intercalate_cons (List.cons_ne_nil q ps),
      if_pos (List.length_pos_of_mem List.mem_cons_self)]

variable {holds}

theorem getElem?_slot {done ts : List α} {t : α} {room : List (Option α)} :
    (done.map some ++ ((t :: ts).map some ++ room))[done.length]? = some (some t) := by
  rw [List.getElem?_append_right (by rw [List.length_map]), List.length_map, Nat.sub_self]
  rfl

theorem totalLoop_eq (d : List UInt8) {len : α → Option Nat}
    (hlen : ∀ t zs, holds t zs → len t = some zs.length)
    (done : List α) {ts : List α} {ps : List (List UInt8)} (room : List (Option α)) (total : Nat)
    {count : Nat} (hcount : count = done.length + ts.length) (hall : List.Forall₂ holds ts ps)
    (hsize : total + (d.intercalate ps).length < 2 ^ 64) :
    totalLoop (done.map some ++ (ts.map some ++ room)) count d.length len ts.length done.length
      total = some (some (total + (d.intercalate ps).length)) := by
  induction hall generalizing done total with
  | nil => rfl
  | @cons t zs ts ps ht hall ih =>
    have hlength := hall.length_eq
    rw [List.length_cons] at hcount
    rw [intercalate_cons_if, List.length_append, List.length_append] at hsize ⊢
    have hsum : toSize (total + zs.length) = total + zs.length := Nat.mod_eq_of_lt (by omega)
    have hdelim : (if done.length + 1 < count then toSize (total + zs.length + d.length)
        else total + zs.length) =
        total + zs.length + (if 0 < ps.length then d else []).length := by
      split
      case isTrue h =>
        rw [if_pos (by omega)] at hsize ⊢
        exact Nat.mod_eq_of_lt (by omega)
      case isFalse h =>
        rw [if_neg (by omega)]
        rfl
    have hrun := ih (done ++ [t]) (total + zs.length + (if 0 < ps.length then d else []).length)
      (by rw [List.length_append, List.length_singleton]; omega) (by omega)
    have hstrings : (done ++ [t]).map some ++ (ts.map some ++ room) =
        done.map some ++ ((t :: ts).map some ++ room) := by simp
    rw [hstrings, List.length_append, List.length_singleton] at hrun
    rw [List.length_cons, totalLoop, getElem?_slot]
    simp only [Option.bind_eq_bind, Option.bind_some, hlen t zs ht, hsum, hdelim]
    rw [hrun]
    congr 2
    omega

theorem joinLoop_eq (d : List UInt8) {text : α → Option (List UInt8)}
    (htext : ∀ t zs, holds t zs → text t = some zs)
    (done : List α) {ts : List α} {ps : List (List UInt8)} (slots : List (Option α))
    (out room : List UInt8) {count : Nat} (hcount : count = done.length + ts.length)
    (hall : List.Forall₂ holds ts ps)
    (hroom : (d.intercalate ps).length ≤ room.length) :
    joinLoop (done.map some ++ (ts.map some ++ slots)) count d text ts.length done.length
      (out ++ room) out.length =
    some (out ++ d.intercalate ps ++ room.drop (d.intercalate ps).length,
      (out ++ d.intercalate ps).length) := by
  induction hall generalizing done out room with
  | nil => simp [joinLoop]
  | @cons t zs ts ps ht hall ih =>
    have hlength := hall.length_eq
    rw [List.length_cons] at hcount
    rw [intercalate_cons_if] at hroom ⊢
    simp only [List.length_append] at hroom
    have hdelim : (if done.length + 1 < count then d else []) =
        if 0 < ps.length then d else [] := if_congr (by omega) rfl rfl
    generalize (if 0 < ps.length then d else []) = sep at hroom hdelim ⊢
    have hput := put_append out room zs (by omega)
    have hput' := put_append (out ++ zs) (room.drop zs.length) sep (by rw [List.length_drop]; omega)
    have hrun := ih (done ++ [t]) (out ++ zs ++ sep) ((room.drop zs.length).drop sep.length)
      (by rw [List.length_append, List.length_singleton]; omega)
      (by simp only [List.length_drop]; omega)
    have hstrings : (done ++ [t]).map some ++ (ts.map some ++ slots) =
        done.map some ++ ((t :: ts).map some ++ slots) := by simp
    have hnext : (done ++ [t]).length = done.length + 1 := List.length_append
    rw [hstrings, hnext] at hrun
    rw [List.length_cons, joinLoop, getElem?_slot]
    simp only [Option.bind_eq_bind, Option.bind_some, htext t zs ht, hput, hdelim, hput']
    rw [hrun]
    simp only [List.append_assoc, List.drop_drop, List.length_append, Nat.add_assoc]

end Arrays

/-! ## The functions -/

/-- The function returns a string with the given content. -/
def Yields (r : Option (Option Cstr)) (zs : List UInt8) : Prop :=
  ∃ t, r = some (some t) ∧ t.Holds zs

/-- A block with a NUL-terminated string. -/
def StrHolds (block zs : List UInt8) : Prop := (0 : UInt8) ∉ zs ∧ ∃ rest, block = zs ++ 0 :: rest

/-- The function returns a block with the given string. -/
def YieldsStr (r : Option (Option (List UInt8))) (zs : List UInt8) : Prop :=
  ∃ block, r = some (some block) ∧ StrHolds block zs

variable {s : Cstr} {xs : List UInt8}

theorem Cstr.Holds.finds (h : s.Holds xs) {d : CText} (hd : d.bytes ≠ []) :
    Finds (fun p rem => cstrSearch s.mem p rem d.mem d.bytes.length) d.bytes xs := by
  obtain ⟨rest, hmem⟩ := h.mem
  rw [hmem]
  exact searchImpl_finds hd (0 :: rest) [0]

theorem strSearch_finds (t : CText) {d : CText} (hd : d.bytes ≠ []) :
    Finds (fun p rem => strSearchImpl t.mem p rem d.mem d.bytes.length) d.bytes t.bytes :=
  searchImpl_finds hd [0] [0]

theorem cstrCountSubstr_eq (h : s.Holds xs) {d : CText} (hd : d.bytes ≠ []) :
    cstrCountSubstr s d = some ((pieces d.bytes xs).length - 1) := by
  have hlen : d.len ≠ 0 := by simpa [CString.len] using hd
  rw [cstrCountSubstr]
  split
  case isTrue hshort =>
    rw [h.length] at hshort
    rw [pieces_of_short (hshort.resolve_left hlen)]
    rfl
  case isFalse =>
    have := countLoop_eq (h.finds hd) hd 0 (Nat.zero_le _) (Nat.lt_succ_self _)
    rw [Nat.sub_zero, List.drop_zero, Nat.zero_add] at this
    rw [h.length]
    exact this

/-- The bytes of a pointer into a block. -/
theorem extent_getD (l : List UInt8) : extent (fun i => l.getD i 0) l.length = l := by
  refine List.ext_getElem (length_extent _ _) fun i _ hi => ?_
  simp [extent, hi]

theorem cstrNewFrom_yields (mem : List UInt8) (off n : Nat) (hfits : off + n ≤ mem.length)
    (hlt : n < cstrMaxLen) (buf junk : Nat → UInt8) :
    Yields (cstrNewFrom mem off n (some buf) (some junk)) ((mem.drop off).take n) := by
  have hlen : ((mem.drop off).take n).length = n := by
    rw [List.length_take, List.length_drop]
    omega
  rw [cstrNewFrom, load_eq hfits]
  obtain ⟨t, hnew, hholds⟩ :=
    cstrNewLen_some (fun i => ((mem.drop off).take n).getD i 0) hlt buf junk
  refine ⟨t, hnew, ?_⟩
  have hbytes := extent_getD ((mem.drop off).take n)
  rw [hlen] at hbytes
  rwa [hbytes] at hholds

/-- A part of the content as a new string. -/
theorem Cstr.Holds.part (h : s.Holds xs) (off n : Nat) (hfits : off + n ≤ xs.length)
    (buf junk : Nat → UInt8) :
    Yields (cstrNewFrom s.mem off n (some buf) (some junk)) ((xs.drop off).take n) := by
  obtain ⟨rest, hmem⟩ := h.mem
  have hmax := h.length_lt_max
  have hnew := cstrNewFrom_yields s.mem off n (by rw [hmem, List.length_append]; omega)
    (by omega) buf junk
  rw [hmem, List.drop_append_of_le_length (by omega),
    List.take_append_of_le_length (by rw [List.length_drop]; omega)] at hnew
  rw [hmem]
  exact hnew

theorem Cstr.Holds.copy (h : s.Holds xs) (buf junk : Nat → UInt8) :
    Yields (cstrNewFrom s.mem 0 s.length (some buf) (some junk)) xs := by
  have := h.part 0 xs.length (by omega) buf junk
  rwa [List.drop_zero, List.take_length, ← h.length] at this

/-- What the loops of a function wrote into a string. -/
theorem Cstr.Holds.written {r : Cstr} {m ws zs : List UInt8} (rest : List UInt8) (hr : r.Holds ws)
    (hm : m = zs ++ 0 :: rest) (hlen : m.length = r.mem.length) {n : Nat} (hn : n = zs.length) :
    ({ r.setMem m with length := toU32 n } : Cstr).Holds zs := by
  have hmax := hr.described.length_mem_le
  have hcount := congrArg List.length hm
  rw [List.length_append, List.length_cons] at hcount
  have hu32 : toU32 n = zs.length := by
    rw [hn]
    exact Nat.mod_eq_of_lt (by unfold cstrMaxLen at hmax; omega)
  rw [hu32]
  exact hr.described.holds hlen ⟨rest, hm⟩

/-- The result is as long as the code expects. -/
theorem resultLen_eq (o n : List UInt8) (ps : List (List UInt8))
    (hxs : (o.intercalate ps).length < 2 ^ 63) (hlim : (n.intercalate ps).length < 2 ^ 63) :
    resultLen (o.intercalate ps).length o.length n.length (ps.length - 1) =
      (n.intercalate ps).length := by
  rw [length_intercalate] at hxs hlim ⊢
  rw [length_intercalate]
  generalize ps.length - 1 = k at hxs hlim ⊢
  generalize ps.flatten.length = f at hxs hlim ⊢
  unfold resultLen
  split
  case isTrue hge =>
    have hmul : k * (n.length - o.length) = k * n.length - k * o.length := Nat.mul_sub k _ _
    have hle : k * o.length ≤ k * n.length := Nat.mul_le_mul_left k hge
    have hsize : toSize (k * (n.length - o.length)) = k * (n.length - o.length) :=
      Nat.mod_eq_of_lt (by omega)
    rw [hsize, hmul]
    exact (Nat.mod_eq_of_lt (by omega)).trans (by omega)
  case isFalse hlt =>
    have hmul : k * (o.length - n.length) = k * o.length - k * n.length := Nat.mul_sub k _ _
    have hle : k * n.length ≤ k * o.length := Nat.mul_le_mul_left k (by omega)
    have hsize : toSize (k * (o.length - n.length)) = k * (o.length - n.length) :=
      Nat.mod_eq_of_lt (by omega)
    rw [hsize, hmul, subSize_eq (by omega)]
    omega

variable {d o n : CText} {stack : Nat → Nat} {table : Nat → Nat → Nat} {buf junk : Nat → UInt8}

theorem cstrMaxLen_lt : cstrMaxLen < 2 ^ 31 := by decide

/-- The first loop of the replacements in a string. -/
theorem collect_offsets {search : Search} {d : List UInt8} (hfind : Finds search d xs)
    (hd : d ≠ []) (hxs : xs.length < cstrMaxLen) (stack : Nat → Nat) (table : Nat → Nat → Nat) :
    ∃ later, collectLoop search xs.length d.length (fun i => some (table i)) (xs.length + 1) 0
      xs.length ⟨extent stack raStackCap, true⟩ 0 =
        some (some (cuts d.length 0 (pieces d xs) ++ later, (pieces d xs).length - 1)) := by
  have hcap : xs.length ≤ raMaxCap := by
    have := cstrMaxLen_lt
    unfold raMaxCap
    omega
  have hpos : 0 < (extent stack raStackCap).length := by
    rw [length_extent]
    decide
  obtain ⟨later, hrun⟩ := collectLoop_spec hfind hd hcap table
    ⟨extent stack raStackCap, true⟩ [] (extent stack raStackCap) rfl hpos
    (Nat.zero_le 0) (Nat.zero_le _) (Nat.lt_succ_self _)
  rw [Nat.sub_zero, List.drop_zero, List.nil_append, List.length_nil, Nat.zero_add] at hrun
  exact ⟨later, hrun⟩

theorem cstrReplaceAll_yields (h : s.Holds xs) (ho : o.bytes ≠ [])
    (hlim : (n.bytes.intercalate (pieces o.bytes xs)).length < cstrMaxLen) :
    Yields (cstrReplaceAll s o n stack (fun i => some (table i)) (some buf) (some junk))
      (n.bytes.intercalate (pieces o.bytes xs)) := by
  have hlen : o.len ≠ 0 := by simpa [CString.len] using ho
  have hjoin := intercalate_pieces ho xs
  have hmax := cstrMaxLen_lt
  have hxs := h.length_lt_max
  obtain ⟨later, hrun⟩ := collect_offsets (h.finds ho) ho hxs stack table
  rw [← h.length] at hrun
  rw [cstrReplaceAll, if_neg hlen]
  dsimp only
  rw [show o.len = o.bytes.length from rfl, hrun]
  simp only [Option.bind_eq_bind, Option.bind_some]
  split
  case isTrue hzero =>
    rw [pieces_eq_singleton ho hzero, List.intercalate_singleton]
    exact h.copy buf junk
  case isFalse =>
    have hres := resultLen_eq o.bytes n.bytes (pieces o.bytes xs)
      (by rw [hjoin]; omega) (by omega)
    rw [hjoin, ← h.length] at hres
    rw [show n.len = n.bytes.length from rfl, hres]
    obtain ⟨r, hr, hrholds, hroom⟩ := cstrInit_some hlim buf junk
    obtain ⟨rest, hmem⟩ := h.mem
    obtain ⟨dst, hbuild, hdst, rest', heq⟩ := rebuild_spec n.bytes (0 :: rest)
      later r.mem (pieces_ne_nil ho xs) hjoin.symm hroom
    rw [← hmem, ← h.length] at hbuild
    rw [hr]
    simp only [Option.bind_some, hbuild]
    exact ⟨_, rfl, hrholds.written rest' heq hdst rfl⟩

theorem strDup_eq (t : CText) (junk : Nat → UInt8) :
    strDup t (some junk) = some (some (t.bytes ++ [0])) := by
  have hfits := t.fits
  have hsize : toSize (t.len + 1) = t.mem.length := by
    rw [CString.mem, List.length_append]
    exact Nat.mod_eq_of_lt (by unfold CString.len; omega)
  have hstore : store (extent junk t.mem.length) 0 t.mem = some t.mem := by
    have hroom := length_extent junk t.mem.length
    rw [store_eq (by omega), List.take_zero, List.drop_eq_nil_of_le (by omega), List.append_nil,
      List.nil_append]
  rw [strDup, hsize, load_eq (by omega), List.drop_zero, List.take_length, Option.bind_eq_bind, Option.bind_some,
    hstore]
  rfl

theorem strDup_yields (t : CText) (junk : Nat → UInt8) :
    YieldsStr (strDup t (some junk)) t.bytes := ⟨_, strDup_eq t junk, t.nulFree, [], rfl⟩

/-- What is put together from strings has no NUL. -/
theorem nulFree_replaced {o xs : List UInt8} (ho : o ≠ []) (hxs : (0 : UInt8) ∉ xs)
    {n : List UInt8} (hn : (0 : UInt8) ∉ n) : (0 : UInt8) ∉ n.intercalate (pieces o xs) := by
  intro h
  rcases mem_intercalate h with h | ⟨p, hp, h⟩
  · exact hn h
  · exact hxs (mem_of_mem_pieces ho xs p hp 0 h)

theorem strReplaceAll_yields (t : CText) (ht : t.bytes.length < cstrMaxLen) (ho : o.bytes ≠ [])
    (hlim : (n.bytes.intercalate (pieces o.bytes t.bytes)).length < cstrMaxLen) :
    YieldsStr (strReplaceAll (some t) (some o) (some n) stack (fun i => some (table i))
      (some junk)) (n.bytes.intercalate (pieces o.bytes t.bytes)) := by
  have hlen : o.len ≠ 0 := by simpa [CString.len] using ho
  have hjoin := intercalate_pieces ho t.bytes
  have hmax := cstrMaxLen_lt
  obtain ⟨later, hrun⟩ := collect_offsets (strSearch_finds t ho) ho ht stack table
  rw [strReplaceAll]
  dsimp only
  rw [if_neg hlen, show o.len = o.bytes.length from rfl, show t.len = t.bytes.length from rfl, hrun]
  simp only [Option.bind_eq_bind, Option.bind_some]
  split
  case isTrue hzero =>
    rw [pieces_eq_singleton ho hzero, List.intercalate_singleton]
    exact strDup_yields t junk
  case isFalse =>
    have hres := resultLen_eq o.bytes n.bytes (pieces o.bytes t.bytes)
      (by rw [hjoin]; omega) (by omega)
    rw [hjoin] at hres
    rw [show n.len = n.bytes.length from rfl, hres]
    have hsize : toSize ((n.bytes.intercalate (pieces o.bytes t.bytes)).length + 1) =
        (n.bytes.intercalate (pieces o.bytes t.bytes)).length + 1 := Nat.mod_eq_of_lt (by omega)
    obtain ⟨dst, hbuild, -, rest', heq⟩ := rebuild_spec n.bytes [0] later
      (extent junk ((n.bytes.intercalate (pieces o.bytes t.bytes)).length + 1))
      (pieces_ne_nil ho t.bytes) hjoin.symm (by rw [length_extent]; omega)
    rw [hsize, show t.mem = t.bytes ++ [0] from rfl]
    simp only [Option.bind_some, hbuild]
    exact ⟨dst, rfl, nulFree_replaced ho t.nulFree n.nulFree, rest', heq⟩

theorem cstrSplit_slots (h : s.Holds xs) (hd : d.bytes ≠ []) (slots : Nat → Nat → Option Cstr)
    (buf junk : Nat → Nat → UInt8) :
    ∃ parts, cstrSplit s (some d) (fun i => some (slots i)) (fun i => some (buf i))
        (fun i => some (junk i)) = some (some (parts, (pieces d.bytes xs).length)) ∧
      Slots Cstr.Holds parts (pieces d.bytes xs) := by
  have hlen : d.len ≠ 0 := by simpa [CString.len] using hd
  obtain ⟨ts, room, hrun, hall, -⟩ := splitLoop_spec Cstr.Holds (h.finds hd) hd slots
    (fun i start n hfits => h.part start n hfits (buf i) (junk i)) 0 [] (extent (slots 0) 8)
      (Nat.zero_le _)
    (by rw [List.map_nil, List.nil_append, length_extent]; decide) (Nat.zero_le _)
    (Nat.lt_succ_self _)
  rw [List.drop_zero] at hall
  simp only [List.map_nil, List.nil_append, List.length_nil, Nat.zero_add, hall.length_eq] at hrun
  refine ⟨ts.map some ++ room, ?_, ts, room, rfl, hall⟩
  rw [cstrSplit]
  dsimp only
  rw [if_neg hlen, h.length]
  exact hrun

/-- A block for a part of the string. -/
theorem strToken_holds (t : CText) {start n : Nat} (hfits : start + n ≤ t.bytes.length)
    (junk : Nat → UInt8) :
    ∃ block, strToken t.mem start n (some junk) = some (some block) ∧
      StrHolds block ((t.bytes.drop start).take n) := by
  have ht := t.fits
  have hlen : ((t.bytes.drop start).take n).length = n := by
    rw [List.length_take, List.length_drop]
    omega
  have hload : load t.mem start n = some ((t.bytes.drop start).take n) := load_left hfits
  have hsize : toSize (n + 1) = n + 1 := Nat.mod_eq_of_lt (by omega)
  have hnul : (0 : UInt8) ∉ (t.bytes.drop start).take n := fun h =>
    t.nulFree (List.mem_of_mem_drop (List.mem_of_mem_take h))
  generalize (t.bytes.drop start).take n = l at hlen hload hnul ⊢
  have hstore := store_last junk l 0
  rw [hlen] at hstore
  refine ⟨l ++ [0], ?_, hnul, [], rfl⟩
  rw [strToken, hload, hsize, Option.bind_eq_bind, Option.bind_some]
  exact Option.map_bind.symm.trans (congrArg (Option.map some) hstore)

theorem strSplit_slots (t : CText) (hd : d.bytes ≠ [])
    (slots : Nat → Nat → Option (List UInt8)) (junk : Nat → Nat → UInt8) :
    ∃ parts, strSplit (some t) (some d) (fun i => some (slots i)) (fun i => some (junk i)) =
        some (some (parts, (pieces d.bytes t.bytes).length)) ∧
      Slots StrHolds parts (pieces d.bytes t.bytes) ∧
      parts[(pieces d.bytes t.bytes).length]? = some none := by
  have hlen : d.len ≠ 0 := by simpa [CString.len] using hd
  obtain ⟨ts, room, hrun, hall, hroom⟩ := splitLoop_spec StrHolds (strSearch_finds t hd) hd slots
    (fun i start n hfits => strToken_holds t hfits (junk i)) 1 [] (extent (slots 0) 8)
    (by rw [length_extent]; decide)
    (by rw [List.map_nil, List.nil_append, length_extent]; decide) (Nat.zero_le _)
    (by omega : t.bytes.length - 0 < t.bytes.length + 1)
  obtain ⟨y, room', rfl⟩ := List.exists_cons_of_length_pos hroom
  rw [List.drop_zero] at hall
  simp only [List.map_nil, List.nil_append, List.length_nil, Nat.zero_add] at hrun
  have hend := store_slot (ts.map some) y none room'
  rw [List.length_map, hall.length_eq] at hend
  refine ⟨ts.map some ++ [none] ++ room', ?_, ⟨ts, [none] ++ room', List.append_assoc _ _ _, hall⟩,
    ?_⟩
  · rw [strSplit]
    dsimp only
    rw [if_neg hlen]
    simp only [Option.bind_eq_bind]
    rw [show d.len = d.bytes.length from rfl, show t.len = t.bytes.length from rfl, hrun]
    simp only [Option.bind_some, hall.length_eq, hend, Option.map_some]
  · rw [← hall.length_eq, List.append_assoc, List.getElem?_append_right (by rw [List.length_map]),
      List.length_map, Nat.sub_self]
    rfl

/-! ### Joining -/

variable {ps : List (List UInt8)}

theorem cstrJoin_yields {parts : List (Option Cstr)} (hparts : Slots Cstr.Holds parts ps)
    (delim : Option CText) (hlim : ((delimBytes delim).intercalate ps).length < cstrMaxLen)
    (buf junk : Nat → UInt8) :
    Yields (cstrJoin (some parts) ps.length delim (some buf) (some junk))
      ((delimBytes delim).intercalate ps) := by
  have hmax := cstrMaxLen_lt
  obtain ⟨ts, room, rfl, hall⟩ := hparts
  cases hps : ps.length with
  | zero =>
    rw [List.length_eq_zero_iff.mp hps]
    have hempty : 0 < cstrMaxLen := by decide
    exact cstrNewFrom_yields [0] 0 0 (Nat.le_succ _) hempty buf junk
  | succ k =>
    rw [← hps]
    have htotal := totalLoop_eq (delimBytes delim)
      (fun (c : Cstr) zs (hc : c.Holds zs) => congrArg some hc.length) [] room 0
      (hall.length_eq.symm.trans (Nat.zero_add _).symm) hall (by omega)
    obtain ⟨r, hr, hrholds, hroom⟩ := cstrInit_some hlim buf junk
    have htext : ∀ (c : Cstr) zs, c.Holds zs → load c.mem 0 c.length = some zs := by
      intro c zs hc
      have := hc.load_content le_rfl
      rwa [List.take_length, ← hc.length] at this
    have hjoin := joinLoop_eq (delimBytes delim) htext [] room [] r.mem
      (hall.length_eq.symm.trans (Nat.zero_add _).symm) hall (by omega)
    simp only [List.map_nil, List.nil_append, List.length_nil, Nat.zero_add, hall.length_eq]
      at htotal hjoin
    obtain ⟨x, tail, htail⟩ := List.exists_cons_of_length_pos
      (l := r.mem.drop ((delimBytes delim).intercalate ps).length)
      (by rw [List.length_drop]; omega)
    rw [htail] at hjoin
    have hnul := store_slot ((delimBytes delim).intercalate ps) x 0 tail
    have hcount := congrArg List.length htail
    rw [List.length_drop, List.length_cons] at hcount
    unfold cstrJoin
    rw [hps] at htotal hjoin ⊢
    simp only [Option.bind_eq_bind, Option.bind_some, htotal, hr, hjoin, hnul]
    refine ⟨_, rfl, hrholds.written tail (List.append_assoc _ _ _) ?_ rfl⟩
    simp only [List.length_append, List.length_singleton]
    omega

theorem strlen_eq {zs rest : List UInt8} (h : (0 : UInt8) ∉ zs) :
    strlen (zs ++ 0 :: rest) = some zs.length := idxOf?_zero h

theorem strJoin_yields {parts : List (Option (List UInt8))} (hparts : Slots StrHolds parts ps)
    (hnulfree : ∀ p ∈ ps, (0 : UInt8) ∉ p)
    (delim : Option CText) (hlim : ((delimBytes delim).intercalate ps).length < cstrMaxLen)
    (junk : Nat → UInt8) :
    YieldsStr (strJoin (some parts) ps.length delim (some junk))
      ((delimBytes delim).intercalate ps) := by
  have hmax := cstrMaxLen_lt
  obtain ⟨ts, room, rfl, hall⟩ := hparts
  have hdelim : (0 : UInt8) ∉ delimBytes delim := by
    cases delim with
    | none => exact List.not_mem_nil
    | some delim => exact delim.nulFree
  have hfree : (0 : UInt8) ∉ (delimBytes delim).intercalate ps := by
    intro h
    rcases mem_intercalate h with h | ⟨p, hp, h⟩
    · exact hdelim h
    · exact hnulfree p hp h
  cases hps : ps.length with
  | zero =>
    rw [List.length_eq_zero_iff.mp hps]
    exact ⟨[0], rfl, List.not_mem_nil, [], rfl⟩
  | succ k =>
    rw [← hps]
    have hlen : ∀ block zs, StrHolds block zs → strlen block = some zs.length := by
      rintro block zs ⟨hfree, rest, rfl⟩
      exact strlen_eq hfree
    have htext : ∀ block zs, StrHolds block zs →
        (do load block 0 (← strlen block)) = some zs := by
      rintro block zs ⟨hfree, rest, rfl⟩
      rw [strlen_eq hfree]
      have hload : load ([] ++ (zs ++ 0 :: rest)) ([] : List UInt8).length zs.length = some zs :=
        load_append
      exact hload
    -- the first loop adds up the lengths, the second copies the parts
    have htotal := totalLoop_eq (delimBytes delim) hlen [] room 0
      (hall.length_eq.symm.trans (Nat.zero_add _).symm) hall (by omega)
    have hjoin := joinLoop_eq (delimBytes delim) htext [] room []
      (extent junk (((delimBytes delim).intercalate ps).length + 1))
      (hall.length_eq.symm.trans (Nat.zero_add _).symm) hall (by rw [length_extent]; omega)
    simp only [List.map_nil, List.nil_append, List.length_nil, Nat.zero_add, hall.length_eq]
      at htotal hjoin
    -- the terminator is written into the one byte allocated beyond the text
    obtain ⟨x, tail, htail⟩ := List.exists_cons_of_length_pos
      (l := (extent junk (((delimBytes delim).intercalate ps).length + 1)).drop
        ((delimBytes delim).intercalate ps).length)
      (by rw [List.length_drop, length_extent]; omega)
    rw [htail] at hjoin
    have hnul := store_slot ((delimBytes delim).intercalate ps) x 0 tail
    have hsize : toSize (((delimBytes delim).intercalate ps).length + 1) =
        ((delimBytes delim).intercalate ps).length + 1 := Nat.mod_eq_of_lt (by omega)
    unfold strJoin
    rw [hps] at htotal hjoin ⊢
    simp only [Option.bind_eq_bind] at hjoin
    simp only [Option.bind_eq_bind, Option.bind_some, htotal, hsize, hjoin, hnul, Option.map_some]
    exact ⟨_, rfl, hfree, tail, List.append_assoc _ _ _⟩

/-! ### Removing -/

theorem cstrRemove_tests (d : List UInt8) (len : Nat) :
    Tests (cstrRemoveTest (d ++ [0]) d.length len) d len := by
  intro pre ys rest hlen _
  unfold cstrRemoveTest
  split
  case isFalse hend =>
    rw [if_pos (List.length_eq_zero_iff.mp (by omega))]
  case isTrue hlt =>
    have hne : ys ≠ [] := by
      rintro rfl
      simp at hlen
      omega
    have hrem : subSize len pre.length = ys.length := by
      rw [subSize_eq (by omega)]
      omega
    dsimp only
    rw [hrem, if_neg hne]
    split
    case isTrue hge =>
      rw [memcmpEq_eq (by simp; omega) (by simp), Option.map_some, List.drop_left, List.drop_zero,
        List.take_left, List.take_append_of_le_length hge]
      refine congrArg (some ∘ some) (decide_eq_decide.mpr ?_)
      rw [List.prefix_iff_eq_take]
      exact eq_comm
    case isFalse hlt =>
      have hno : ¬ d <+: ys := fun h => hlt h.length_le
      rw [decide_eq_false hno]

/-- Comparing stops at the end of the string. -/
theorem strncmpEq_eq {d post p rest : List UInt8} (hd : (0 : UInt8) ∉ d) {ys : List UInt8}
    (hys : (0 : UInt8) ∉ ys) {i j : Nat} {q : List UInt8} (hp : p.drop i = ys ++ 0 :: rest)
    (hq : q.drop j = d ++ post) :
    strncmpEq p i q j d.length = some (decide (d <+: ys)) := by
  induction d generalizing ys i j with
  | nil => simp [strncmpEq]
  | cons b d ih =>
    have hget : p[i]? = (ys ++ 0 :: rest)[0]? := by rw [← hp, List.getElem?_drop, Nat.add_zero]
    have hget' : q[j]? = some b := by
      rw [← Nat.add_zero j, ← List.getElem?_drop, hq]
      rfl
    rw [List.length_cons, strncmpEq, hget, hget']
    cases ys with
    | nil =>
      have hb : (0 : UInt8) ≠ b := fun h => hd (h ▸ List.mem_cons_self)
      simp [hb]
    | cons a ys =>
      simp only [List.cons_append, List.getElem?_cons_zero, Option.bind_eq_bind, Option.bind_some]
      have ha : a ≠ 0 := fun h => hys (h ▸ List.mem_cons_self)
      split
      case isTrue hne =>
        have hno : ¬ b :: d <+: a :: ys := fun h => hne (List.cons_prefix_cons.mp h).1.symm
        rw [decide_eq_false hno]
      case isFalse heq =>
        obtain rfl : a = b := not_not.mp heq
        rw [ih (fun h => hd (List.mem_cons_of_mem a h))
          (fun h => hys (List.mem_cons_of_mem a h))
          (by rw [← List.drop_drop, hp]; rfl) (by rw [← List.drop_drop, hq]; rfl)]
        refine congrArg some (decide_eq_decide.mpr ?_)
        rw [List.cons_prefix_cons]
        exact (and_iff_right rfl).symm

theorem strRemove_tests {d : List UInt8} (hd : (0 : UInt8) ∉ d) (len : Nat) :
    Tests (strRemoveTest (d ++ [0]) d.length) d len := by
  intro pre ys rest _ hys
  have hget : (pre ++ (ys ++ 0 :: rest))[pre.length]? = (ys ++ 0 :: rest)[0]? := by
    rw [List.getElem?_append_right le_rfl, Nat.sub_self]
  rw [strRemoveTest, hget, strncmpEq_eq hd hys List.drop_left rfl]
  cases ys with
  | nil => rfl
  | cons a ys =>
    have ha : a ≠ 0 := fun h => hys (h ▸ List.mem_cons_self)
    simp [ha]

theorem cstrRemoveAll_holds (h : s.Holds xs) (hxs : (0 : UInt8) ∉ xs) (hd : d.bytes ≠ []) :
    ∃ s', cstrRemoveAll s d = some (s', (pieces d.bytes xs).length - 1) ∧
      s'.Holds (pieces d.bytes xs).flatten := by
  have hlen : d.len ≠ 0 := by simpa [CString.len] using hd
  obtain ⟨rest, hmem⟩ := h.mem
  obtain ⟨x, room, hrun, hsame⟩ := removeLoop_spec (cstrRemove_tests d.bytes xs.length) hd
    0 [] [] xs rest (Nat.zero_add _) hxs
    (Nat.lt_succ_self xs.length)
  simp only [List.append_nil, List.nil_append, List.length_nil, Nat.zero_add] at hrun hsame
  rw [← hmem] at hrun hsame
  have hnul := store_slot (pieces d.bytes xs).flatten x 0 room
  have hdst : ((pieces d.bytes xs).flatten ++ [0] ++ room).length = s.mem.length := by
    rw [← hsame]
    simp
  rw [cstrRemoveAll, if_neg hlen, h.length, show d.mem = d.bytes ++ [0] from rfl,
    show d.len = d.bytes.length from rfl, hrun]
  simp only [Option.bind_eq_bind, Option.bind_some, hnul]
  exact ⟨_, rfl, h.written room (List.append_assoc _ _ _) hdst rfl⟩

theorem strRemoveAll_holds {block : List UInt8} (h : StrHolds block xs) (hd : d.bytes ≠ []) :
    ∃ block', strRemoveAll (some block) (some d) =
        some (some block', (pieces d.bytes xs).length - 1) ∧
      StrHolds block' (pieces d.bytes xs).flatten := by
  have hlen : d.len ≠ 0 := by simpa [CString.len] using hd
  obtain ⟨hxs, rest, rfl⟩ := h
  obtain ⟨x, room, hrun, -⟩ := removeLoop_spec (strRemove_tests d.nulFree xs.length) hd
    0 [] [] xs rest (Nat.zero_add _) hxs
    (by rw [List.length_append, List.length_cons]; omega :
      xs.length < (xs ++ 0 :: rest).length + 1)
  simp only [List.append_nil, List.nil_append, List.length_nil, Nat.zero_add] at hrun
  have hnul := store_slot (pieces d.bytes xs).flatten x 0 room
  have hfree : (0 : UInt8) ∉ (pieces d.bytes xs).flatten := by
    have := nulFree_replaced hd hxs (n := []) List.not_mem_nil
    rwa [intercalate_nil_left] at this
  rw [strRemoveAll, if_neg hlen, show d.mem = d.bytes ++ [0] from rfl,
    show d.len = d.bytes.length from rfl, hrun]
  simp only [Option.bind_eq_bind, Option.bind_some, hnul]
  exact ⟨_, rfl, hfree, room, List.append_assoc _ _ _⟩

/-! ## Agreement -/

/-- What the memory of successful allocations holds before it is written to; they are numbered
within a call. -/
structure Granted where
  stack : Nat → Nat
  table : Nat → Nat → Nat
  slots : Nat → Nat → Option Cstr
  strSlots : Nat → Nat → Option (List UInt8)
  structs : Nat → Nat → UInt8
  blocks : Nat → Nat → UInt8

namespace Granted

variable (g : Granted)

def split (s : Cstr) (delim : CText) : Option (Option (List (Option Cstr) × Nat)) :=
  cstrSplit s (some delim) (fun i => some (g.slots i)) (fun i => some (g.structs i))
    (fun i => some (g.blocks i))

def join (strings : List (Option Cstr)) (count : Nat) (delim : CText) : Option (Option Cstr) :=
  cstrJoin (some strings) count (some delim) (some (g.structs 0)) (some (g.blocks 0))

def replaceAll (s : Cstr) (oldSub newSub : CText) : Option (Option Cstr) :=
  cstrReplaceAll s oldSub newSub g.stack (fun i => some (g.table i)) (some (g.structs 0))
    (some (g.blocks 0))

def splitStr (str delim : CText) : Option (Option (List (Option (List UInt8)) × Nat)) :=
  strSplit (some str) (some delim) (fun i => some (g.strSlots i)) (fun i => some (g.blocks i))

def joinStr (strings : List (Option (List UInt8))) (count : Nat) (delim : CText) :
    Option (Option (List UInt8)) :=
  strJoin (some strings) count (some delim) (some (g.blocks 0))

def replaceAllStr (str oldSub newSub : CText) : Option (Option (List UInt8)) :=
  strReplaceAll (some str) (some oldSub) (some newSub) g.stack (fun i => some (g.table i))
    (some (g.blocks 0))

end Granted

def emptyText : CText := ⟨⟨[], nul_not_mem_nil⟩, Nat.two_pow_pos 63⟩

/-- The texts of an array of C strings have no NUL. -/
theorem Slots.nulFree {parts : List (Option (List UInt8))} (h : Slots StrHolds parts ps) :
    ∀ p ∈ ps, (0 : UInt8) ∉ p := by
  obtain ⟨ts, room, -, hall⟩ := h
  intro p hp
  obtain ⟨i, hi, rfl⟩ := List.getElem_of_mem hp
  exact (hall.get (by rw [hall.length_eq]; exact hi) hi).1

/-- Splitting, joining, counting, replacing and removing agree on the occurrences, and both
families of functions agree with each other. -/
theorem split_join_replace (g : Granted) (t : CText) (h : s.Holds t.bytes) (d o n : CText)
    (hd : d.bytes ≠ []) (ho : o.bytes ≠ [])
    (hlim : (n.bytes.intercalate (pieces o.bytes t.bytes)).length < cstrMaxLen) :
    (∃ parts ps, g.split s d = some (some (parts, ps.length)) ∧ Slots Cstr.Holds parts ps ∧
      (∀ p ∈ ps, ¬ d.bytes <:+: p) ∧
      (∃ k, cstrCountSubstr s d = some k ∧ ps.length = k + 1) ∧
      Yields (g.join parts ps.length d) t.bytes ∧
      ∃ strParts, g.splitStr t d = some (some (strParts, ps.length)) ∧
        Slots StrHolds strParts ps ∧ strParts[ps.length]? = some none) ∧
    (∃ parts count zs, g.split s o = some (some (parts, count)) ∧
      Yields (g.join parts count n) zs ∧ Yields (g.replaceAll s o n) zs ∧
      YieldsStr (g.replaceAllStr t o n) zs) ∧
    (∃ s' k zs, cstrRemoveAll s o = some (s', k) ∧ s'.Holds zs ∧ cstrCountSubstr s o = some k ∧
      Yields (g.replaceAll s o emptyText) zs ∧
      ∀ block, StrHolds block t.bytes → ∃ block', strRemoveAll (some block) (some o) =
        some (some block', k) ∧ StrHolds block' zs) ∧
    ∀ ps parts strParts, Slots Cstr.Holds parts ps → Slots StrHolds strParts ps →
      (n.bytes.intercalate ps).length < cstrMaxLen →
      ∃ zs, Yields (g.join parts ps.length n) zs ∧
      YieldsStr (g.joinStr strParts ps.length n) zs := by
  have hmax := h.length_lt_max
  refine ⟨?splitting, ?replacing, ?removing, ?joining⟩
  case splitting =>
    obtain ⟨parts, hsplit, hparts⟩ := cstrSplit_slots h hd g.slots g.structs g.blocks
    obtain ⟨strParts, hstr, hstrParts, hend⟩ := strSplit_slots t hd g.strSlots g.blocks
    have hjoin := intercalate_pieces hd t.bytes
    have hback := cstrJoin_yields hparts (some d)
      (by rw [delimBytes, Option.elim_some, hjoin]; omega)
      (g.structs 0) (g.blocks 0)
    have hpos := List.length_pos_iff.mpr (pieces_ne_nil hd t.bytes)
    rw [delimBytes, Option.elim_some, hjoin] at hback
    exact ⟨parts, pieces d.bytes t.bytes, hsplit, hparts, not_infix_of_mem_pieces hd t.bytes,
      ⟨_, cstrCountSubstr_eq h hd, by omega⟩, hback, strParts, hstr, hstrParts, hend⟩
  case replacing =>
    obtain ⟨parts, hsplit, hparts⟩ := cstrSplit_slots h ho g.slots g.structs g.blocks
    exact ⟨parts, _, _, hsplit, cstrJoin_yields hparts (some n) hlim _ _,
      cstrReplaceAll_yields h ho hlim, strReplaceAll_yields t hmax ho hlim⟩
  case removing =>
    -- without the occurrences the string is not longer than before
    have hless : (pieces o.bytes t.bytes).flatten.length < cstrMaxLen := by
      have hlen := length_intercalate o.bytes (pieces o.bytes t.bytes)
      rw [intercalate_pieces ho] at hlen
      omega
    have hflat := intercalate_nil_left (pieces o.bytes t.bytes)
    obtain ⟨s', hremove, hs'⟩ := cstrRemoveAll_holds h t.nulFree ho
    have hreplace : Yields (g.replaceAll s o emptyText)
        (([] : List UInt8).intercalate (pieces o.bytes t.bytes)) :=
      cstrReplaceAll_yields h ho (by rw [emptyText, hflat]; exact hless)
    refine ⟨s', _, _, hremove, hs', cstrCountSubstr_eq h ho, ?_, fun block hblock =>
      strRemoveAll_holds hblock ho⟩
    rw [← hflat]
    exact hreplace
  case joining =>
    intro ps parts strParts hparts hstrParts hsmall
    exact ⟨_, cstrJoin_yields hparts (some n) hsmall _ _,
      strJoin_yields hstrParts hstrParts.nulFree (some n) hsmall _⟩

theorem split_join_replace_comma :
    ∃ (g : Granted) (t n : CText) (s r : Cstr), t.bytes = [44, 97] ∧ n.bytes = [45, 45] ∧
      s.Holds t.bytes ∧
      g.replaceAll s ⟨⟨[44], by decide⟩, by decide⟩ n = some (some r) ∧ r.Holds [45, 45, 97] ∧
      YieldsStr (g.replaceAllStr t ⟨⟨[44], by decide⟩, by decide⟩ n) [45, 45, 97] := by
  have hholds : (⟨none, 2, 0, [44, 97] ++ 0 :: List.replicate 13 0⟩ : Cstr).Holds [44, 97] :=
    ⟨⟨rfl, rfl⟩, rfl, List.replicate 13 0, rfl⟩
  have hparts : pieces [44] [44, 97] = [[], [(97 : UInt8)]] := by
    rw [pieces_prefixed (by decide) (by decide)]
    change [] :: pieces [44] [97] = _
    rw [pieces_cons (by decide) (by decide), pieces_nil (by decide)]
    rfl
  obtain ⟨-, ⟨parts, count, zs, -, -, ⟨r, hr, hzs⟩, hstr⟩, -, -⟩ := split_join_replace
    ⟨fun _ => 0, fun _ _ => 0, fun _ _ => none, fun _ _ => none, fun _ _ => 0, fun _ _ => 0⟩
    ⟨⟨[44, 97], by decide⟩, by decide⟩ hholds ⟨⟨[44], by decide⟩, by decide⟩
    ⟨⟨[44], by decide⟩, by decide⟩ ⟨⟨[45, 45], by decide⟩, by decide⟩ (by decide) (by decide)
    (by rw [hparts]; decide)
  have hrun := hr
  change some (some (⟨none, 3, 0, [45, 45, 97] ++ 0 :: List.replicate 12 0⟩ : Cstr)) = _ at hrun
  obtain rfl : zs = [45, 45, 97] := by
    rw [← hzs.content_eq, ← Option.some.inj (Option.some.inj hrun)]
    rfl
  exact ⟨_, _, _, _, r, rfl, rfl, hholds, hr, hzs, hstr⟩

end Solidc.Text
