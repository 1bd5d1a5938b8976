import Solidc.Text.Snakecase

/-! # Snake case of words

`str_to_snakecase` writes a new string, with an underscore in front of the capitals that begin a
word: those behind a lower case letter, or in front of one, but not behind an underscore. A first
pass counts the underscores for the size of the block, a second one writes the string; the rule is
written out in both of them.

* `countPass_eq`, `buildPass_eq` — what the passes count and write, both by `insertions`;
* `snakeWords_idempotent` — a string without capitals stays as it is;
* `strToSnakecase_exact` — the block is filled exactly.
-/

namespace Solidc.Text

open CLib

/-! ## The code -/

/-- The test of a pass for a capital at `i > 0`: lower->UPPER or UPPER->UPPER->lower. -/
def insertsUnderscore (str : CMem) (orig i : Nat) : Option Bool := do
  let prev ← str.rd (i - 1)
  let next ← if i + 1 < orig then str.rd (i + 1) else some 0
  some (prev ≠ 0x5F && (letterTest 0x61 prev || letterTest 0x61 next))

/-- "Pass 1: Count how many underscores we need to insert", from `i` on, for `n` rounds. -/
def countPass (str : CMem) (orig i extra : Nat) : Nat → Option Nat
  | 0 => some extra
  | n + 1 => do
    let c ← str.rd i
    if letterTest 0x41 c then
      let inserts ← insertsUnderscore str orig i
      countPass str orig (i + 1) (if inserts then toSize (extra + 1) else extra) n
    else countPass str orig (i + 1) extra n

/-- The second pass asks for `i > 0` first. -/
def insertsBehind (str : CMem) (orig i : Nat) : Option Bool :=
  if i > 0 then insertsUnderscore str orig i else some false

/-- A turn of the second pass: the block and `w`. -/
def buildTurn (str : CMem) (orig i : Nat) (r : List UInt8) (w : Nat) :
    Option (List UInt8 × Nat) := do
  let c ← str.rd i
  if letterTest 0x41 c then
    let inserts ← insertsBehind str orig i
    if inserts then
      let r ← store r w [0x5F]
      let r ← store r (w + 1) [c ||| 0x20]
      some (r, w + 1 + 1)
    else
      let r ← store r w [c ||| 0x20]
      some (r, w + 1)
  else
    let r ← store r w [c]
    some (r, w + 1)

/-- "Pass 2: Build the string", from `i` on, for `n` rounds. -/
def buildPass (str : CMem) (orig i : Nat) (r : List UInt8) (w : Nat) :
    Nat → Option (List UInt8 × Nat)
  | 0 => some (r, w)
  | n + 1 => do
    let (r, w) ← buildTurn str orig i r w
    buildPass str orig (i + 1) r w n

/-- `str_to_snakecase`. -/
def strToSnakecase (str : Option CText) (malloc : Nat → Alloc) : Option (Option (List UInt8)) :=
  match str with
  | none => some none
  | some str =>
    let orig := str.len
    if orig = 0 then
      match malloc 1 with
      | none => some none
      | some junk => (store (extent junk 1) 0 [0]).map some
    else do
      let extra ← countPass str.mem orig 1 0 (orig - 1)
      let size := toSize (toSize (orig + extra) + 1)
      match malloc size with
      | none => some none
      | some junk => do
        let (r, w) ← buildPass str.mem orig 0 (extent junk size) 0 orig
        let r ← store r w [0]
        some (some r)

/-! ## The property -/

/-- `islower`. -/
def isLower (c : UInt8) : Bool := 0x61 ≤ c && c ≤ 0x7A

/-- A word begins with the capital at `i`. -/
def beginsWord (xs : List UInt8) (i : Nat) : Bool :=
  isUpper (xs.getD i 0) && (0 < i && (xs.getD (i - 1) 0 ≠ 0x5F &&
    (isLower (xs.getD (i - 1) 0) || isLower (xs.getD (i + 1) 0))))

/-- What becomes of the byte at a position of `xs`; the flag marks what is inserted. -/
def wordPiece (xs : List UInt8) (i : Nat) (c : UInt8) : List (UInt8 × Bool) :=
  if beginsWord xs i then [(0x5F, true), (toLower c, false)] else [(toLower c, false)]

/-- The new string with its marks. -/
def markedWords (xs : List UInt8) : List (UInt8 × Bool) := expand (wordPiece xs) xs

/-- An underscore in front of every word but the first, and everything in lower case. -/
def snakeWords (xs : List UInt8) : List UInt8 := (markedWords xs).map Prod.fst

/-- The bytes in front of which an underscore is inserted, among the first `n`. -/
def insertions (xs : List UInt8) (n : Nat) : Nat := (List.range n).countP (beginsWord xs)

variable {text : CText} {xs l free : List UInt8} {c : UInt8} {i n extra : Nat}

/-! ## The new string -/

theorem insertions_succ (xs : List UInt8) (n : Nat) :
    insertions xs (n + 1) = insertions xs n + if beginsWord xs n then 1 else 0 := by
  rw [insertions, List.range_succ, List.countP_append, List.countP_singleton, insertions]

theorem beginsWord_zero (xs : List UInt8) : beginsWord xs 0 = false := by
  simp [beginsWord]

/-- The first byte is not one of them. -/
theorem insertions_le (xs : List UInt8) (n : Nat) : insertions xs n ≤ n - 1 := by
  induction n with
  | zero => exact le_rfl
  | succ n ih =>
    rw [insertions_succ]
    cases n with
    | zero =>
      rw [beginsWord_zero]
      exact le_rfl
    | succ n =>
      split <;> omega

theorem insertions_mono (xs : List UInt8) {m n : Nat} (h : m ≤ n) :
    insertions xs m ≤ insertions xs n :=
  (List.range_sublist.mpr h).countP_le

theorem length_wordPiece (xs : List UInt8) (i : Nat) (c : UInt8) :
    (wordPiece xs i c).length = 1 + if beginsWord xs i then 1 else 0 := by
  unfold wordPiece
  split <;> rfl

/-- The part of the new string for the first `n` bytes. -/
def markedTo (xs : List UInt8) (n : Nat) : List (UInt8 × Bool) :=
  expand (wordPiece xs) (xs.take n)

theorem markedTo_length (xs : List UInt8) : markedTo xs xs.length = markedWords xs := by
  rw [markedTo, List.take_length, markedWords]

theorem markedTo_succ (hi : i < xs.length) :
    markedTo xs (i + 1) = markedTo xs i ++ wordPiece xs i xs[i] := expand_take_succ hi

/-- One byte more for every underscore. -/
theorem length_markedTo (hn : n ≤ xs.length) :
    (markedTo xs n).length = n + insertions xs n := by
  refine expand_induction (P := fun n l => l.length = n + insertions xs n) rfl ?_ n hn
  intro i hi l hl
  rw [List.length_append, hl, length_wordPiece, insertions_succ]
  omega

theorem length_snakeWords (xs : List UInt8) :
    (snakeWords xs).length = xs.length + insertions xs xs.length := by
  rw [snakeWords, List.length_map, ← markedTo_length, length_markedTo le_rfl]

/-- Without what is inserted, every byte is lowered. -/
theorem unmarked_words (xs : List UInt8) :
    ((markedWords xs).filter fun m => !m.2).map Prod.fst = xs.map toLower := by
  have hstep : ∀ i (hi : i < xs.length) (l : List (UInt8 × Bool)),
      (l.filter fun m => !m.2).map Prod.fst = (xs.take i).map toLower →
      ((l ++ wordPiece xs i xs[i]).filter fun m => !m.2).map Prod.fst =
        (xs.take (i + 1)).map toLower := by
    intro i hi l hl
    have hpiece : (wordPiece xs i xs[i]).filter (fun m => !m.2) = [(toLower xs[i], false)] := by
      unfold wordPiece
      split <;> rfl
    rw [List.filter_append, List.map_append, hl, hpiece, List.take_succ_eq_append_getElem hi,
      List.map_append, List.map_singleton, List.map_singleton]
  have hall := expand_whole (P := fun n l =>
    (l.filter fun m => !m.2).map Prod.fst = (xs.take n).map toLower) rfl hstep
  rwa [List.take_length] at hall

/-- What is inserted is an underscore, and the rest is lowered. -/
theorem mem_markedWords {m : UInt8 × Bool} (h : m ∈ markedWords xs) :
    m = (0x5F, true) ∨ ∃ c, m = (toLower c, false) := by
  have hstep : ∀ i (hi : i < xs.length) (l : List (UInt8 × Bool)),
      (∀ m ∈ l, m = (0x5F, true) ∨ ∃ c, m = (toLower c, false)) →
      ∀ m ∈ l ++ wordPiece xs i xs[i], m = (0x5F, true) ∨ ∃ c, m = (toLower c, false) := by
    intro i hi l hl m hm
    rcases List.mem_append.mp hm with hm | hm
    · exact hl m hm
    · unfold wordPiece at hm
      split at hm
      · rcases List.mem_cons.mp hm with hm | hm
        · exact Or.inl hm
        · exact Or.inr ⟨_, List.mem_singleton.mp hm⟩
      · exact Or.inr ⟨_, List.mem_singleton.mp hm⟩
  have hall := expand_whole (P := fun _ l =>
    ∀ m ∈ l, m = (0x5F, true) ∨ ∃ c, m = (toLower c, false)) (by simp) hstep
  exact hall m h

/-- There are as many marks as words that begin. -/
theorem count_marks (xs : List UInt8) :
    (markedWords xs).countP Prod.snd = insertions xs xs.length := by
  have hstep : ∀ i (hi : i < xs.length) (l : List (UInt8 × Bool)),
      l.countP Prod.snd = insertions xs i →
      (l ++ wordPiece xs i xs[i]).countP Prod.snd = insertions xs (i + 1) := by
    intro i hi l hl
    have hpiece : (wordPiece xs i xs[i]).countP Prod.snd = if beginsWord xs i then 1 else 0 := by
      unfold wordPiece
      split <;> rfl
    rw [List.countP_append, hl, hpiece, insertions_succ]
  exact expand_whole (P := fun n l => l.countP Prod.snd = insertions xs n) rfl hstep

theorem snakeWords_lower (h : c ∈ snakeWords xs) : isUpper c = false := by
  obtain ⟨m, hm, rfl⟩ := List.mem_map.mp h
  rcases mem_markedWords hm with rfl | ⟨c, rfl⟩
  · rfl
  · exact isUpper_toLower c

/-- A string without capitals stays as it is. -/
theorem snakeWords_of_lower (h : ∀ c ∈ xs, isUpper c = false) : snakeWords xs = xs := by
  have hpiece : ∀ i (hi : i < xs.length), wordPiece xs i xs[i] = [(xs[i], false)] := by
    intro i hi
    have hlower := h xs[i] (List.getElem_mem hi)
    have hget : xs.getD i 0 = xs[i] := List.getD_eq_getElem xs 0 hi
    have hnot : beginsWord xs i = false := by
      rw [beginsWord, hget, hlower, Bool.false_and]
    rw [wordPiece, hnot, toLower_of_not_upper (by rw [hlower]; exact Bool.false_ne_true)]
    rfl
  have hmarked : markedWords xs = xs.map fun c => (c, false) := expand_map hpiece
  rw [snakeWords, hmarked, List.map_map]
  exact List.map_id _

theorem snakeWords_idempotent (xs : List UInt8) : snakeWords (snakeWords xs) = snakeWords xs :=
  snakeWords_of_lower fun _ hc => snakeWords_lower hc

/-! ## The passes -/

theorem letterTest_lower (c : UInt8) : letterTest 0x61 c = isLower c := by
  have hc := c.toNat_lt
  rw [Bool.eq_iff_iff, letterTest, decide_eq_true_iff, isLower, Bool.and_eq_true,
    decide_eq_true_iff, decide_eq_true_iff, UInt8.le_iff_toNat_le, UInt8.le_iff_toNat_le]
  simp only [toU32, UInt8.reduceToNat]
  omega

theorem rd_mem (hi : i < xs.length) : CMem.rd (xs ++ [0]) i = some (xs.getD i 0) := by
  rw [CMem.rd, List.getElem?_append_left hi, List.getElem?_eq_getElem hi,
    List.getD_eq_getElem xs 0 hi]

/-- The test of both passes, behind the first byte. -/
theorem insertsUnderscore_eq (hpos : 0 < i) (hi : i < xs.length)
    (hupper : isUpper (xs.getD i 0) = true) :
    insertsUnderscore (xs ++ [0]) xs.length i = some (beginsWord xs i) := by
  have hprev : CMem.rd (xs ++ [0]) (i - 1) = some (xs.getD (i - 1) 0) := rd_mem (by omega)
  rw [insertsUnderscore, hprev, Option.bind_eq_bind, Option.bind_some, beginsWord, hupper,
    decide_eq_true hpos, Bool.true_and, Bool.true_and, ← letterTest_lower, ← letterTest_lower]
  by_cases hnext : i + 1 < xs.length
  · rw [if_pos hnext, rd_mem hnext]
    rfl
  · rw [if_neg hnext, List.getD_eq_default xs 0 (Nat.le_of_not_lt hnext)]
    rfl

theorem insertsBehind_eq (hi : i < xs.length) (hupper : isUpper (xs.getD i 0) = true) :
    insertsBehind (xs ++ [0]) xs.length i = some (beginsWord xs i) := by
  unfold insertsBehind
  split
  · next hpos => exact insertsUnderscore_eq hpos hi hupper
  · next hzero =>
    obtain rfl := Nat.eq_zero_of_not_pos hzero
    rw [beginsWord_zero]

/-- What the first pass counts. -/
theorem countPass_eq (hpos : 0 < i) (hn : i + n ≤ xs.length) (hfits : xs.length < 2 ^ 63) :
    countPass (xs ++ [0]) xs.length i (insertions xs i) n = some (insertions xs (i + n)) := by
  induction n generalizing i with
  | zero => rfl
  | succ n ih =>
    have hi : i < xs.length := by omega
    have hle := insertions_le xs i
    have hword : toSize (insertions xs i + 1) = insertions xs i + 1 :=
      Nat.mod_eq_of_lt (by omega)
    have hrest := @ih (i + 1) (Nat.succ_pos i) (by omega)
    rw [Nat.add_right_comm, insertions_succ] at hrest
    rw [countPass, rd_mem hi, Option.bind_eq_bind, Option.bind_some, letterTest_upper]
    by_cases hupper : isUpper (xs.getD i 0) = true
    · rw [if_pos hupper, insertsUnderscore_eq hpos hi hupper, Option.bind_eq_bind,
        Option.bind_some, hword]
      refine Eq.trans ?_ hrest
      split <;> rfl
    · have hnot : beginsWord xs i = false := by
        rw [beginsWord, Bool.eq_false_of_not_eq_true hupper, Bool.false_and]
      rw [hnot] at hrest
      rw [if_neg hupper]
      exact hrest

/-- A turn of the second pass writes the piece of its byte behind what is there. -/
theorem buildTurn_eq (hi : i < xs.length)
    (hroom : (wordPiece xs i xs[i]).length ≤ free.length) :
    buildTurn (xs ++ [0]) xs.length i (l ++ free) l.length =
      some (l ++ (wordPiece xs i xs[i]).map Prod.fst ++ free.drop (wordPiece xs i xs[i]).length,
        l.length + (wordPiece xs i xs[i]).length) := by
  have hget : xs.getD i 0 = xs[i] := List.getD_eq_getElem xs 0 hi
  rw [buildTurn, rd_mem hi, Option.bind_eq_bind, Option.bind_some, letterTest_upper]
  by_cases hupper : isUpper (xs.getD i 0) = true
  · rw [if_pos hupper, insertsBehind_eq hi hupper, Option.bind_eq_bind, Option.bind_some, hget,
      setBit_of_isUpper (hget ▸ hupper)]
    by_cases hbegins : beginsWord xs i = true
    · have hpiece : wordPiece xs i xs[i] = [(0x5F, true), (toLower xs[i], false)] := if_pos hbegins
      rw [hpiece] at hroom ⊢
      have hfirst : ([0x5F] : List UInt8).length ≤ free.length := Nat.le_of_succ_le hroom
      have hsecond : ([toLower xs[i]] : List UInt8).length ≤ (free.drop 1).length := by
        rw [List.length_drop]
        exact Nat.le_sub_of_add_le hroom
      have hstore := @store_append _ (free.drop 1) (l ++ [0x5F]) [toLower xs[i]] hsecond
      rw [List.length_append, List.append_assoc] at hstore
      rw [if_pos hbegins, store_append hfirst]
      refine (congrArg (Option.bind · _) hstore).trans ?_
      simp
    · have hpiece : wordPiece xs i xs[i] = [(toLower xs[i], false)] := if_neg hbegins
      rw [hpiece] at hroom ⊢
      rw [if_neg hbegins, store_append hroom, Option.bind_eq_bind, Option.bind_some,
        List.append_assoc]
      rfl
  · have hnot : beginsWord xs i = false := by
      rw [beginsWord, Bool.eq_false_of_not_eq_true hupper, Bool.false_and]
    have hpiece : wordPiece xs i xs[i] = [(xs.getD i 0, false)] := by
      rw [wordPiece, hnot, ← hget, toLower_of_not_upper hupper]
      rfl
    rw [hpiece] at hroom ⊢
    rw [if_neg hupper, store_append hroom, Option.bind_eq_bind, Option.bind_some,
      List.append_assoc]
    rfl

/-- The second pass from `i` on, in a block with room for what is to come. -/
theorem buildPass_eq (hn : i + n ≤ xs.length)
    (hroom : (markedTo xs (i + n)).length ≤ (markedTo xs i).length + free.length) :
    ∃ free', buildPass (xs ++ [0]) xs.length i ((markedTo xs i).map Prod.fst ++ free)
        (markedTo xs i).length n =
      some ((markedTo xs (i + n)).map Prod.fst ++ free', (markedTo xs (i + n)).length) ∧
      (markedTo xs (i + n)).length + free'.length = (markedTo xs i).length + free.length := by
  induction n generalizing i free with
  | zero => exact ⟨free, rfl, rfl⟩
  | succ n ih =>
    have hi : i < xs.length := by omega
    have hnext := markedTo_succ hi
    have hlen := congrArg List.length hnext
    rw [List.length_append] at hlen
    have hshift : i + 1 + n = i + (n + 1) := by omega
    -- the turns to come take nothing back
    have hmono : (markedTo xs (i + 1)).length ≤ (markedTo xs (i + (n + 1))).length := by
      have hle := insertions_mono xs (by omega : i + 1 ≤ i + (n + 1))
      rw [length_markedTo hn, @length_markedTo _ (i + 1) hi]
      omega
    have hturn := @buildTurn_eq xs ((markedTo xs i).map Prod.fst) free i hi (by omega)
    rw [List.length_map, ← List.map_append, ← hnext, ← hlen] at hturn
    obtain ⟨free', hrest, hsum⟩ := @ih (free.drop (wordPiece xs i xs[i]).length) (i + 1)
      (by omega) (by rw [List.length_drop, hshift]; omega)
    rw [hshift] at hrest hsum
    refine ⟨free', ?_, ?_⟩
    · rw [buildPass, hturn]
      exact hrest
    · rw [List.length_drop] at hsum
      omega

/-! ## The block -/

theorem counted (text : CText) : countPass text.mem text.len 1 0 (text.len - 1) =
    some (insertions text.bytes text.bytes.length) := by
  have hzero : insertions text.bytes 1 = 0 := Nat.le_zero.mp (insertions_le _ 1)
  have hlen : text.len = text.bytes.length := rfl
  rcases Nat.eq_zero_or_pos text.bytes.length with hempty | hpos
  · rw [hlen, hempty]
    rfl
  · have hcount := countPass_eq (n := text.bytes.length - 1) Nat.one_pos (by omega) text.fits
    rw [hzero, Nat.add_sub_cancel' hpos] at hcount
    exact hcount

/-- The second pass leaves one byte of a block of the size that was counted. -/
theorem built (text : CText) (junk : Nat → UInt8) : ∃ x,
    buildPass text.mem text.len 0 (extent junk ((snakeWords text.bytes).length + 1)) 0 text.len =
      some (snakeWords text.bytes ++ [x], (snakeWords text.bytes).length) := by
  have hlen := length_snakeWords text.bytes
  have hroom : (markedTo text.bytes (0 + text.bytes.length)).length ≤
      (markedTo text.bytes 0).length +
        (extent junk ((snakeWords text.bytes).length + 1)).length := by
    rw [Nat.zero_add, length_markedTo le_rfl, length_extent]
    omega
  obtain ⟨free, hrun, hsum⟩ := buildPass_eq (Nat.zero_add _).le hroom
  rw [Nat.zero_add, markedTo_length] at hrun hsum
  have hwords : (markedWords text.bytes).length = (snakeWords text.bytes).length :=
    (List.length_map _).symm
  have hstart : (markedTo text.bytes 0).length = 0 := rfl
  rw [hwords, length_extent, hstart] at hsum
  obtain ⟨x, rfl⟩ := List.length_eq_one_iff.mp (by omega : free.length = 1)
  rw [hwords] at hrun
  exact ⟨x, hrun⟩

/-- NULL without memory, and else a block with exactly the string and its NUL. -/
theorem strToSnakecase_eq (text : CText) (malloc : Nat → Alloc) :
    strToSnakecase (some text) malloc =
      some ((malloc ((snakeWords text.bytes).length + 1)).map fun _ =>
        snakeWords text.bytes ++ [0]) := by
  have hlen := length_snakeWords text.bytes
  have hle := insertions_le text.bytes text.bytes.length
  have hfits := text.fits
  unfold strToSnakecase
  dsimp only
  by_cases hempty : text.len = 0
  · have hnil : text.bytes = [] := List.length_eq_zero_iff.mp hempty
    rw [if_pos hempty, hnil]
    change _ = some ((malloc 1).map _)
    cases malloc 1 with
    | none => rfl
    | some junk => rfl
  · have hsize : toSize (toSize (text.len + insertions text.bytes text.bytes.length) + 1) =
        (snakeWords text.bytes).length + 1 := by
      rw [hlen]
      unfold toSize CString.len
      omega
    rw [if_neg hempty, counted, Option.bind_eq_bind, Option.bind_some, hsize]
    cases malloc ((snakeWords text.bytes).length + 1) with
    | none => rfl
    | some junk =>
      obtain ⟨x, hbuilt⟩ := built text junk
      have hstore := store_slot (snakeWords text.bytes) x 0 []
      dsimp only
      rw [hbuilt, Option.bind_eq_bind, Option.bind_some]
      dsimp only
      rw [hstore, List.append_nil]
      rfl

/-- For every string the second pass writes as many underscores as the first one counted, so that
the string and its NUL fill the block; it is the input in lower case, but for what is inserted;
and the function does nothing to its own result. -/
theorem strToSnakecase_exact (text : CText) (malloc : Nat → Alloc) : ∃ extra,
    countPass text.mem text.len 1 0 (text.len - 1) = some extra ∧
    (∀ junk, ∃ r, buildPass text.mem text.len 0 (extent junk (text.len + extra + 1)) 0 text.len =
      some (r, text.len + extra)) ∧
    strToSnakecase (some text) malloc =
      some ((malloc (text.len + extra + 1)).map fun _ => snakeWords text.bytes ++ [0]) ∧
    (snakeWords text.bytes ++ [0]).length = text.len + extra + 1 ∧
    (∀ c ∈ snakeWords text.bytes, isUpper c = false) ∧
    (markedWords text.bytes).countP Prod.snd = extra ∧
    (∀ m ∈ markedWords text.bytes, m.2 = true → m.1 = 0x5F) ∧
    ((markedWords text.bytes).filter fun m => !m.2).map Prod.fst = text.bytes.map toLower ∧
    ∀ (again : CText) malloc', again.bytes = snakeWords text.bytes →
      strToSnakecase (some again) malloc' =
        some ((malloc' (again.len + 1)).map fun _ => again.bytes ++ [0]) := by
  have hlen : (snakeWords text.bytes).length =
      text.len + insertions text.bytes text.bytes.length := length_snakeWords text.bytes
  refine ⟨insertions text.bytes text.bytes.length, counted text, ?_, ?_, ?_, ?_, count_marks _, ?_,
    unmarked_words _, ?_⟩
  · intro junk
    obtain ⟨x, hbuilt⟩ := built text junk
    rw [hlen] at hbuilt
    exact ⟨_, hbuilt⟩
  · rw [strToSnakecase_eq, hlen]
  · rw [List.length_append, hlen, List.length_singleton]
  · intro c hc
    exact snakeWords_lower hc
  · intro m hm hmark
    rcases mem_markedWords hm with rfl | ⟨c, rfl⟩
    · rfl
    · cases hmark
  · intro again malloc' hagain
    have hsame : snakeWords again.bytes = again.bytes := by
      rw [hagain, snakeWords_idempotent]
    rw [strToSnakecase_eq, hsame]
    rfl

example : snakeWords [0x48, 0x54, 0x54, 0x50, 0x53, 0x65, 0x72] =
    [0x68, 0x74, 0x74, 0x70, 0x5F, 0x73, 0x65, 0x72] := by decide

end Solidc.Text
