import Solidc.Lib.CNumber
import Solidc.Lib.Expansion
import Solidc.Text.Mutators

/-! # Snake case

`cstr_snakecase` puts an underscore in front of every capital but the first byte, in place and from
right to left.

* `Head.Safe` — where the two cursors stand at the head of the loop, and what is still to be read;
* `Expanding.snakeTurn`, `snakeLoop_eq` — one turn of the loop, and all of them;
* `cstrSnakecase_expands` — the string that results, or the same string as before.
-/

namespace Solidc.Text

open CLib

/-! ## The code -/

/-- `(unsigned)(c - first) <= 25u`. -/
def letterTest (first c : UInt8) : Bool := toU32 (c.toNat + 2 ^ 32 - first.toNat) ≤ 25

/-- The loop of `cstr_lower` from `i` on, for `n` rounds. -/
def lowerLoop (mem : List UInt8) (i : Nat) : Nat → Option (List UInt8)
  | 0 => some mem
  | n + 1 => do
    let c ← mem[i]?
    let mem ← if letterTest 0x41 c then store mem i [c ||| 0x20] else some mem
    lowerLoop mem (i + 1) n

def cstrLower (s : Cstr) : Option Cstr := (lowerLoop s.mem 0 s.length).map s.setMem

/-- "Count how many underscores we'll need to insert": from `i` on, for `n` rounds. -/
def underscoreLoop (mem : List UInt8) (i extra : Nat) : Nat → Option Nat
  | 0 => some extra
  | n + 1 => do
    let c ← mem[i]?
    underscoreLoop mem (i + 1) (if letterTest 0x41 c then toU32 (extra + 1) else extra) n

/-- A turn of the loop that expands, behind `i--`: the memory and the pointer `w`, relative to
`data`. -/
def snakeTurn (mem : List UInt8) (w : Int) (i : Nat) : Option (List UInt8 × Int) := do
  let c ← mem[i]?
  if i > 0 ∧ letterTest 0x41 c = true then
    (storeDown mem w [c ||| 0x20, 0x5F]).map (·, w - 2)
  else
    (storeDown mem w [if letterTest 0x41 c then c ||| 0x20 else c]).map (·, w - 1)

/-- `for (uint32_t i = orig; i > 0;)`. -/
def snakeLoop (mem : List UInt8) (w : Int) : Nat → Option (List UInt8)
  | 0 => some mem
  | i + 1 => do
    let (mem, w) ← snakeTurn mem w i
    snakeLoop mem w i

/-- `cstr_snakecase`; the boolean is what it returns. -/
def cstrSnakecase (s : Cstr) (alloc : Alloc) : Option (Cstr × Bool) :=
  let orig := s.length
  if orig = 0 then some (s, true)
  else do
    let extra ← underscoreLoop s.mem 1 0 (orig - 1)
    if extra = 0 then (cstrLower s).map (·, true)
    else
      let newLen := toU32 (orig + extra)
      withRoom s (toU32 (newLen + 1)) alloc fun s => do
        let mem ← store s.mem newLen [0]
        let mem ← snakeLoop mem (newLen - 1) orig
        some { s.setMem mem with length := newLen }

/-! ## The property -/

/-- `isupper`. -/
def isUpper (c : UInt8) : Bool := 0x41 ≤ c && c ≤ 0x5A

/-- What becomes of the byte at a position. -/
def snakePiece (i : Nat) (c : UInt8) : List UInt8 :=
  if 0 < i ∧ isUpper c = true then [0x5F, toLower c] else [toLower c]

/-- An underscore in front of every capital but the first byte, and everything in lower case. -/
def snakecased (xs : List UInt8) : List UInt8 := expand snakePiece xs

/-- The capitals behind the first byte. -/
def capitals (xs : List UInt8) : Nat := (xs.drop 1).countP isUpper

/-- The head of the loop: `i` bytes are still to be read, and `w` is the next to be written. -/
structure Head where
  mem : List UInt8
  i : Nat
  w : Int

/-- The loop, turn by turn. -/
def heads (start : Head) : System Head Unit where
  init e := e = start
  step e _ e' := ∃ i, e.i = i + 1 ∧ snakeTurn e.mem e.w i = some (e'.mem, e'.w) ∧ e'.i = i

/-- The bytes still to be read are those of `xs`; the distance between the next byte to read and
the next one to write is the number of underscores still to be inserted, so that nothing in front
of the byte to read is written; and the next turn stays inside the block. -/
structure Head.Safe (xs : List UInt8) (e : Head) : Prop where
  unread : e.mem.take e.i = xs.take e.i
  distance : e.w - (e.i - 1) = capitals (xs.take e.i)
  behind : (e.i : Int) - 1 ≤ e.w
  goes_on : ∀ i, e.i = i + 1 → ∃ mem w, snakeTurn e.mem e.w i = some (mem, w) ∧ (i : Int) - 1 ≤ w

/-- Where the loop begins, with a NUL at the new end. -/
def snakeStart (s : Cstr) (newLen : Nat) : Option Head :=
  (store s.mem newLen [0]).map (⟨·, s.length, newLen - 1⟩)

variable {s : Cstr} {xs ys rest mem : List UInt8} {c : UInt8} {i n extra : Nat} {w : Int}

/-! ## Bytes -/

theorem letterTest_upper (c : UInt8) : letterTest 0x41 c = isUpper c := by
  have hc := c.toNat_lt
  rw [Bool.eq_iff_iff, letterTest, decide_eq_true_iff, isUpper, Bool.and_eq_true,
    decide_eq_true_iff, decide_eq_true_iff, UInt8.le_iff_toNat_le, UInt8.le_iff_toNat_le]
  simp only [toU32, UInt8.reduceToNat]
  omega

/-- Setting the bit 0x20 lowers a capital. -/
theorem setBit_of_isUpper (h : isUpper c = true) : c ||| 0x20 = toLower c := by
  have hall : ∀ x : BitVec 8, 0x41#8 ≤ x ∧ x ≤ 0x5A#8 → x ||| 32#8 = x + 32#8 := by
    decide +kernel
  have hrange : 0x41 ≤ c ∧ c ≤ 0x5A := by
    simpa only [isUpper, Bool.and_eq_true, decide_eq_true_eq] using h
  have hset : c ||| 0x20 = c + 0x20 := UInt8.eq_of_toBitVec_eq (hall c.toBitVec hrange)
  rw [hset]
  exact (if_pos h).symm

theorem toLower_of_not_upper (h : isUpper c ≠ true) : toLower c = c := if_neg h

/-- What both functions write for a byte. -/
theorem lowered (c : UInt8) : (if letterTest 0x41 c then c ||| 0x20 else c) = toLower c := by
  rw [letterTest_upper]
  split
  · next h => exact setBit_of_isUpper h
  · next h => exact (toLower_of_not_upper h).symm

theorem isUpper_toLower (c : UInt8) : isUpper (toLower c) = false := by
  have hall : ∀ x : BitVec 8, isUpper (toLower ⟨x⟩) = false := by decide +kernel
  exact hall c.toBitVec

/-! ## The new string -/

theorem snakePiece_ne_nil (i : Nat) (c : UInt8) : snakePiece i c ≠ [] := by
  unfold snakePiece
  split <;> simp

theorem capitals_concat (xs : List UInt8) (c : UInt8) :
    capitals (xs ++ [c]) = capitals xs + if 0 < xs.length ∧ isUpper c = true then 1 else 0 := by
  cases xs with
  | nil => rfl
  | cons x xs => simp [capitals, List.countP_append]

theorem length_snakePiece (i : Nat) (c : UInt8) :
    (snakePiece i c).length = 1 + if 0 < i ∧ isUpper c = true then 1 else 0 := by
  unfold snakePiece
  split <;> rfl

/-- One byte more for every underscore. -/
theorem length_snakecased (xs : List UInt8) :
    (snakecased xs).length = xs.length + capitals xs := by
  unfold snakecased
  induction xs using List.reverseRecOn with
  | nil => rfl
  | append_singleton xs c ih =>
    rw [expand_concat, List.length_append, ih, length_snakePiece, capitals_concat,
      List.length_append, List.length_singleton]
    omega

/-- Without underscores the bytes are only lowered. -/
theorem snakecased_of_none (h : capitals xs = 0) : snakecased xs = xs.map toLower := by
  unfold snakecased
  induction xs using List.reverseRecOn with
  | nil => rfl
  | append_singleton xs c ih =>
    rw [capitals_concat] at h
    have hnot : ¬ (0 < xs.length ∧ isUpper c = true) := by
      intro hcapital
      rw [if_pos hcapital] at h
      omega
    rw [expand_concat, ih (by omega), snakePiece, if_neg hnot, List.map_append, List.map_singleton]

/-! ## The loops -/

/-- A step of the count, as long as it does not wrap. -/
theorem underscoreLoop_eq (h : i + n ≤ xs.length) (hfits : extra + n < 2 ^ 32) :
    underscoreLoop (xs ++ rest) i extra n =
      some (extra + ((xs.drop i).take n).countP isUpper) := by
  induction n generalizing i extra with
  | zero => rw [underscoreLoop, List.take_zero, List.countP_nil, Nat.add_zero]
  | succ n ih =>
    have hi : i < xs.length := by omega
    have hread : (xs ++ rest)[i]? = some xs[i] := by
      rw [List.getElem?_append_left hi, List.getElem?_eq_getElem hi]
    have hword : toU32 (extra + 1) = extra + 1 := Nat.mod_eq_of_lt (by omega)
    rw [underscoreLoop, hread, Option.bind_eq_bind, Option.bind_some, letterTest_upper, hword,
      List.drop_eq_getElem_cons hi, List.take_succ_cons, List.countP_cons]
    split
    · rw [ih (by omega) (by omega)]
      congr 1
      omega
    · rw [ih (by omega) (by omega)]
      congr 1

theorem lowerLoop_eq (xs ys rest : List UInt8) :
    lowerLoop (xs ++ (ys ++ rest)) xs.length ys.length =
      some (xs ++ (ys.map toLower ++ rest)) := by
  induction ys generalizing xs with
  | nil => rfl
  | cons y ys ih =>
    have hread : (xs ++ (y :: ys ++ rest))[xs.length]? = some y := by simp
    have hrest := ih (xs ++ [toLower y])
    rw [List.length_append, List.length_singleton, List.append_assoc] at hrest
    rw [List.length_cons, lowerLoop, hread, Option.bind_eq_bind, Option.bind_some, letterTest_upper,
      List.map_cons]
    by_cases h : isUpper y = true
    · have hstore : store (xs ++ (y :: ys ++ rest)) xs.length [y ||| 0x20] =
          some (xs ++ [toLower y] ++ (ys ++ rest)) := by
        rw [setBit_of_isUpper h]
        exact store_slot xs y _ (ys ++ rest)
      rw [if_pos h, hstore, List.append_assoc]
      exact hrest.trans (by simp)
    · rw [toLower_of_not_upper h] at hrest ⊢
      rw [if_neg h]
      exact hrest.trans (by simp)

/-- A turn writes the piece of the byte that it reads. -/
theorem snakeTurn_eq (hread : mem[i]? = some c) :
    snakeTurn mem w i =
      (storeDown mem w (snakePiece i c).reverse).map (·, w - (snakePiece i c).length) := by
  rw [snakeTurn, hread, Option.bind_eq_bind, Option.bind_some, lowered, letterTest_upper,
    snakePiece]
  split
  · next h =>
    rw [setBit_of_isUpper h.2]
    rfl
  · rfl

/-- The invariant is kept by a turn, which therefore stays inside the block. -/
theorem Expanding.snakeTurn (h : Expanding snakePiece xs rest mem (i + 1) w) :
    ∃ mem' w', snakeTurn mem w i = some (mem', w') ∧ Expanding snakePiece xs rest mem' i w' := by
  have hi : i < xs.length := h.le
  have hread : mem[i]? = some xs[i] := h.read.trans (List.getElem?_eq_getElem hi)
  obtain ⟨mem', hstore, hnext⟩ := h.turn hi snakePiece_ne_nil
  exact ⟨mem', _, by rw [snakeTurn_eq hread, hstore, Option.map_some], hnext⟩

theorem snakeLoop_eq (h : Expanding snakePiece xs rest mem i w) :
    snakeLoop mem w i = some (snakecased xs ++ rest) := by
  induction i generalizing mem w with
  | zero => rw [snakeLoop, h.finished.1, snakecased]
  | succ i ih =>
    obtain ⟨mem', w', hturn, hnext⟩ := Expanding.snakeTurn h
    rw [snakeLoop, hturn, Option.bind_eq_bind, Option.bind_some]
    exact ih hnext

/-! ## The string -/

theorem Cstr.Holds.lower (h : s.Holds xs) :
    ∃ s', cstrLower s = some s' ∧ s'.Holds (xs.map toLower) := by
  obtain ⟨rest, hmem⟩ := h.mem
  have hloop : lowerLoop s.mem 0 s.length = some (xs.map toLower ++ 0 :: rest) := by
    rw [hmem, h.length]
    exact lowerLoop_eq [] xs (0 :: rest)
  have hlen : (xs.map toLower ++ 0 :: rest).length = s.mem.length := by
    rw [hmem, List.length_append, List.length_append, List.length_map]
  refine ⟨s.setMem (xs.map toLower ++ 0 :: rest), by rw [cstrLower, hloop, Option.map_some],
    h.described.setMem hlen, ?_, rest, Cstr.mem_setMem _ _⟩
  rw [Cstr.length_setMem, h.length, List.length_map]

/-- With the room for the new string, the loop begins with the gap that it needs. -/
theorem Cstr.Holds.expanding (h : s.Holds xs) (hroom : (snakecased xs).length + 1 ≤ s.mem.length) :
    ∃ mem rest, store s.mem (snakecased xs).length [0] = some mem ∧
      mem.length = s.mem.length ∧
      Expanding snakePiece xs (0 :: rest) mem s.length ((snakecased xs).length - 1) := by
  have hle : xs.length ≤ (snakecased xs).length := le_length_expand snakePiece_ne_nil xs
  have hstore := @store_eq _ s.mem (snakecased xs).length [0] hroom
  have hlen := length_store hstore
  obtain ⟨rest, hmem⟩ := h.mem
  have hgap : s.mem.take (snakecased xs).length =
      xs ++ (0 :: rest).take ((snakecased xs).length - xs.length) := by
    rw [hmem, List.take_append, List.take_of_length_le hle]
  refine ⟨_, s.mem.drop ((snakecased xs).length + 1), hstore, hlen, ?_⟩
  rw [hgap, h.length]
  refine Expanding.start ?_
  rw [List.length_take]
  rw [hmem, List.length_append] at hroom
  change _ = (snakecased xs).length
  omega

/-- The invariant of the block says that the turns are safe. -/
theorem Expanding.safe (h : Expanding snakePiece xs rest mem i w) : Head.Safe xs ⟨mem, i, w⟩ := by
  refine ⟨h.unread, ?_, ?_, ?_⟩
  · have hcursor := h.cursor
    have hlen := length_snakecased (xs.take i)
    rw [List.length_take, Nat.min_eq_left h.le] at hlen
    rw [show expand snakePiece (xs.take i) = snakecased (xs.take i) from rfl, hlen] at hcursor
    dsimp only
    omega
  · have hle := h.le_cursor
    dsimp only
    omega
  · intro j hj
    dsimp only at hj
    subst hj
    obtain ⟨mem', w', hturn, hnext⟩ := Expanding.snakeTurn h
    have hle := hnext.le_cursor
    exact ⟨mem', w', hturn, by omega⟩

/-- Every turn keeps the invariant of the block. -/
theorem heads_expanding {start e : Head}
    (hstart : Expanding snakePiece xs rest start.mem start.i start.w)
    (h : Reach (heads start) AnyStep e) : Expanding snakePiece xs rest e.mem e.i e.w := by
  refine h.invariant (fun e => Expanding snakePiece xs rest e.mem e.i e.w) ?_ ?_
  · intro e he
    rw [he]
    exact hstart
  · intro e _ e' hinv _ hstep
    obtain ⟨i, hi, hturn, hi'⟩ := hstep
    rw [hi] at hinv
    obtain ⟨mem', w', hturn', hnext⟩ := Expanding.snakeTurn hinv
    obtain ⟨hmem, hw⟩ := Prod.mk.inj (Option.some.inj (hturn.symm.trans hturn'))
    rw [hi', hmem, hw]
    exact hnext

/-- What is counted is what is inserted. -/
theorem Cstr.Holds.underscoreLoop (h : s.Holds xs) :
    underscoreLoop s.mem 1 0 (s.length - 1) = some (capitals xs) := by
  have hroom := h.length_lt
  have hmax := h.described.length_mem_le
  obtain ⟨rest, hmem⟩ := h.mem
  unfold cstrMaxLen at hmax
  cases xs with
  | nil =>
    rw [h.length]
    rfl
  | cons x xs =>
    have hcount : (((x :: xs).drop 1).take xs.length) = xs := List.take_length
    rw [List.length_cons] at hroom
    rw [h.length, List.length_cons, Nat.add_sub_cancel, hmem,
      underscoreLoop_eq (by rw [List.length_cons]; omega) (by omega), hcount, Nat.zero_add]
    rfl

/-- There are fewer capitals than bytes, so no sum wraps around. -/
theorem Cstr.Holds.snakecased_lt (h : s.Holds xs) :
    xs.length + capitals xs + 1 < 2 ^ 32 ∧ (capitals xs = 0 ∨ xs ≠ []) := by
  have hroom := h.length_lt
  have hmax := h.described.length_mem_le
  have hcount := List.countP_le_length (p := isUpper) (l := xs.drop 1)
  rw [List.length_drop] at hcount
  unfold cstrMaxLen at hmax
  unfold capitals
  refine ⟨by omega, ?_⟩
  cases xs with
  | nil => exact Or.inl rfl
  | cons => exact Or.inr (List.cons_ne_nil _ _)

/-- The string afterwards. -/
theorem Cstr.Holds.snakecase (h : s.Holds xs) (alloc : Alloc) :
    cstrSnakecase s alloc = some (s, false) ∧
        (cstrMaxLen < (snakecased xs).length + 1 ∨ alloc = none) ∨
      ∃ s', cstrSnakecase s alloc = some (s', true) ∧ s'.Holds (snakecased xs) := by
  have hsum := h.snakecased_lt.1
  unfold cstrSnakecase
  dsimp only
  by_cases hempty : s.length = 0
  · -- nothing to do
    have hnil : xs = [] := List.length_eq_zero_iff.mp (h.length ▸ hempty)
    subst hnil
    exact Or.inr ⟨s, if_pos hempty, h⟩
  rw [if_neg hempty, h.underscoreLoop, Option.bind_eq_bind, Option.bind_some]
  by_cases hnone : capitals xs = 0
  · -- no underscores: the bytes are lowered where they stand
    obtain ⟨s', hlower, hholds⟩ := h.lower
    rw [if_pos hnone, hlower, snakecased_of_none hnone]
    exact Or.inr ⟨s', rfl, hholds⟩
  have hnew : toU32 (s.length + capitals xs) = (snakecased xs).length := by
    rw [length_snakecased, h.length]
    exact Nat.mod_eq_of_lt (by omega)
  have hneed : toU32 ((snakecased xs).length + 1) = (snakecased xs).length + 1 := by
    rw [length_snakecased]
    exact Nat.mod_eq_of_lt hsum
  rw [if_neg hnone, hnew, hneed, withRoom]
  rcases h.ensureCap ((snakecased xs).length + 1) alloc with
    ⟨hfail, hwhy⟩ | ⟨room, hcap, hholds, hroom, -⟩
  · rw [hfail]
    exact Or.inl ⟨rfl, hwhy⟩
  · obtain ⟨mem, rest, hstore, hlen, hexp⟩ := hholds.expanding hroom
    have hloop := snakeLoop_eq hexp
    have hblock : (snakecased xs ++ 0 :: rest).length = room.mem.length :=
      hexp.length_mem.symm.trans hlen
    rw [hholds.length, ← h.length] at hloop
    rw [hcap, Option.bind_eq_bind, Option.bind_some]
    dsimp only
    rw [if_pos rfl, hstore, Option.bind_eq_bind, Option.bind_some, hloop]
    exact Or.inr ⟨_, rfl, hholds.described.holds hblock ⟨rest, rfl⟩⟩

/-- `cstr_snakecase` on every string: the turns of its loop are safe, whatever room it was given;
without memory, or beyond the greatest length, the string stays as it is; and else it is the
input with an underscore in front of every capital but the first byte, in lower case. -/
theorem cstrSnakecase_expands (h : s.Holds xs) (alloc : Alloc) :
    (∀ room start e, cstrEnsureCap s ((snakecased xs).length + 1) alloc = some (room, true) →
      snakeStart room (snakecased xs).length = some start → Reach (heads start) AnyStep e →
      e.Safe xs) ∧
    (cstrSnakecase s alloc = some (s, false) ∧
        (cstrMaxLen < (snakecased xs).length + 1 ∨ alloc = none) ∨
      ∃ s', cstrSnakecase s alloc = some (s', true) ∧ s'.Holds (snakecased xs)) ∧
    (snakecased xs).length = xs.length + capitals xs := by
  refine ⟨?_, ?_, length_snakecased xs⟩
  · intro room start e hcap hstart hreach
    have hroom : room.Holds xs ∧ (snakecased xs).length + 1 ≤ room.mem.length := by
      rcases h.ensureCap ((snakecased xs).length + 1) alloc with
        ⟨hfail, -⟩ | ⟨s', hcap', hholds, hlen, -⟩
      · cases hcap.symm.trans hfail
      · obtain ⟨rfl, -⟩ := Prod.mk.inj (Option.some.inj (hcap.symm.trans hcap'))
        exact ⟨hholds, hlen⟩
    obtain ⟨mem, rest, hstore, -, hexp⟩ := hroom.1.expanding hroom.2
    rw [snakeStart, hstore, Option.map_some, Option.some_inj] at hstart
    subst hstart
    exact Expanding.safe (heads_expanding hexp hreach)
  · exact h.snakecase alloc

/-- The inline string `aBC` becomes `a_b_c` without memory. -/
theorem cstrSnakecase_expands_inline :
    ∃ s', cstrSnakecase ⟨none, 3, 0, [0x61, 0x42, 0x43] ++ List.replicate 13 0⟩ none =
      some (s', true) ∧ s'.Holds [0x61, 0x5F, 0x62, 0x5F, 0x63] := by
  have hholds : Cstr.Holds ⟨none, 3, 0, [0x61, 0x42, 0x43] ++ List.replicate 13 0⟩
      [0x61, 0x42, 0x43] := ⟨⟨rfl, rfl⟩, rfl, List.replicate 12 0, rfl⟩
  rcases (cstrSnakecase_expands hholds none).2.1 with ⟨hfail, -⟩ | hdone
  · have hran := congrArg (Option.map Prod.snd) hfail
    exact absurd hran (by decide)
  · exact hdone

end Solidc.Text
