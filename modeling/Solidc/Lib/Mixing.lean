import Mathlib.Logic.Function.Basic

/-! # Mixing bytes into a word

A hash that takes its key byte by byte is a fold. When a step loses neither the word nor the byte,
a change of one byte can not be made up for by the others. It is the same where the key is taken in
blocks of four, with what is left behind the last block.

* `Mixes.changed`, `MixesBlocks.changed` — two keys that differ in one place have different hashes;
* `mul_injective`, `xorShift_injective`, `rotate_injective`, `crcRound_injective` — steps that
  lose nothing.
-/

namespace CLib

variable {σ α : Type*} {f : σ → α → σ}

/-- A step whose result determines the word before, for a given byte, and the byte, for a given
word. -/
structure Mixes (f : σ → α → σ) : Prop where
  word : ∀ a, Function.Injective fun s => f s a
  letter : ∀ s, Function.Injective (f s)

theorem foldl_injective (h : ∀ a, Function.Injective fun s => f s a) (l : List α) :
    Function.Injective fun s => l.foldl f s := by
  induction l with
  | nil => exact Function.injective_id
  | cons a l ih =>
    intro s t hst
    exact h a (ih hst)

/-- One letter changed. -/
theorem Mixes.changed (h : Mixes f) (s : σ) (l r : List α) (a b : α) :
    (l ++ a :: r).foldl f s = (l ++ b :: r).foldl f s ↔ a = b := by
  constructor
  · intro hfold
    rw [List.foldl_append, List.foldl_append, List.foldl_cons, List.foldl_cons] at hfold
    exact h.letter _ (foldl_injective h.word r hfold)
  · rintro rfl
    rfl

/-! ## Blocks of four -/

section Blocks

variable {block : σ → α → α → α → α → σ} {tail : σ → List α → σ}

/-- The blocks of a key one after the other, then the letters that are left. -/
def foldBlocks (block : σ → α → α → α → α → σ) (tail : σ → List α → σ) : σ → List α → σ
  | s, a :: b :: c :: d :: l => foldBlocks block tail (block s a b c d) l
  | s, l => tail s l

/-- Neither a block nor the tail loses the word or a letter. -/
structure MixesBlocks (block : σ → α → α → α → α → σ) (tail : σ → List α → σ) : Prop where
  word : ∀ a b c d, Function.Injective fun s => block s a b c d
  letters : ∀ s {a b c d a' b' c' d'}, block s a b c d = block s a' b' c' d' →
    a = a' ∧ b = b' ∧ c = c' ∧ d = d'
  tailWord : ∀ l, Function.Injective fun s => tail s l
  tailLetters : ∀ s {l r : List α}, l.length = r.length → l.length < 4 → tail s l = tail s r →
    l = r

theorem foldBlocks_short {l : List α} (hl : l.length < 4) (s : σ) :
    foldBlocks block tail s l = tail s l := by
  rcases l with _ | ⟨a, _ | ⟨b, _ | ⟨c, _ | ⟨d, l⟩⟩⟩⟩
  · rfl
  · rfl
  · rfl
  · rfl
  · simp only [List.length_cons] at hl
    omega

theorem exists_block {l : List α} (hl : ¬ l.length < 4) :
    ∃ a b c d r, l = a :: b :: c :: d :: r := by
  rcases l with _ | ⟨a, _ | ⟨b, _ | ⟨c, _ | ⟨d, r⟩⟩⟩⟩
  · exact absurd (by simp) hl
  · exact absurd (by simp) hl
  · exact absurd (by simp) hl
  · exact absurd (by simp) hl
  · exact ⟨a, b, c, d, r, rfl⟩

theorem MixesBlocks.foldBlocks_injective (h : MixesBlocks block tail) (l : List α) :
    Function.Injective fun s => foldBlocks block tail s l := by
  intro s t hst
  induction s, l using foldBlocks.induct block generalizing t with
  | case1 s a b c d l ih => exact h.word a b c d (ih hst)
  | case2 s l hshort =>
    have hl : l.length < 4 := by
      by_contra hlong
      obtain ⟨a, b, c, d, r, rfl⟩ := exists_block hlong
      exact hshort a b c d r rfl
    have hs : foldBlocks block tail s l = tail s l := foldBlocks_short hl s
    have ht : foldBlocks block tail t l = tail t l := foldBlocks_short hl t
    exact h.tailWord l (hs.symm.trans (hst.trans ht))

/-- Two keys of one length that are the same behind the first block. -/
theorem MixesBlocks.first (h : MixesBlocks block tail) {s : σ} {l r : List α}
    (hlen : l.length = r.length) (hrest : l.drop 4 = r.drop 4)
    (hfold : foldBlocks block tail s l = foldBlocks block tail s r) : l = r := by
  by_cases hshort : l.length < 4
  · rw [foldBlocks_short hshort, foldBlocks_short (hlen ▸ hshort)] at hfold
    exact h.tailLetters s hlen hshort hfold
  · obtain ⟨a, b, c, d, l, rfl⟩ := exists_block hshort
    obtain ⟨a', b', c', d', r, rfl⟩ := exists_block (hlen ▸ hshort)
    have htail : l = r := hrest
    subst htail
    have hblock : block s a b c d = block s a' b' c' d' := h.foldBlocks_injective l hfold
    obtain ⟨rfl, rfl, rfl, rfl⟩ := h.letters s hblock
    rfl

/-- One letter changed. -/
theorem MixesBlocks.changed (h : MixesBlocks block tail) (s : σ) (l r : List α) (a b : α) :
    foldBlocks block tail s (l ++ a :: r) = foldBlocks block tail s (l ++ b :: r) ↔ a = b := by
  constructor
  · intro hfold
    -- the blocks before the one that the letter lies in
    induction s, l using foldBlocks.induct block with
    | case1 s _ _ _ _ l ih => exact ih hfold
    | case2 s l hshort =>
      have hl : l.length < 4 := by
        by_contra hlong
        obtain ⟨_, _, _, _, r, rfl⟩ := exists_block hlong
        exact hshort _ _ _ _ r rfl
      obtain ⟨n, hn⟩ : ∃ n, 4 - l.length = n + 1 := ⟨3 - l.length, by omega⟩
      have hkeys : l ++ a :: r = l ++ b :: r := by
        refine h.first ?_ ?_ hfold
        · simp only [List.length_append, List.length_cons]
        · rw [List.drop_append, List.drop_append, hn, List.drop_succ_cons, List.drop_succ_cons]
      exact (List.cons.inj (List.append_cancel_left hkeys)).1
  · rintro rfl
    rfl

end Blocks

/-! ## Words -/

variable {w : Nat}

/-- Multiplication by a factor that has an inverse. -/
theorem mul_injective {c : BitVec w} (inv : BitVec w) (h : c * inv = 1#w) :
    Function.Injective fun x : BitVec w => x * c := by
  intro x y hxy
  have hinv : x * c * inv = y * c * inv := congrArg (· * inv) hxy
  rwa [BitVec.mul_assoc, BitVec.mul_assoc, h, BitVec.mul_one, BitVec.mul_one] at hinv

theorem xor_injective (z : BitVec w) : Function.Injective fun x : BitVec w => x ^^^ z :=
  fun _ _ h => (BitVec.xor_left_inj z).mp h

theorem xor_injective_left (z : BitVec w) : Function.Injective fun x : BitVec w => z ^^^ x :=
  fun _ _ h => (BitVec.xor_right_inj z).mp h

theorem add_injective (z : BitVec w) : Function.Injective fun x : BitVec w => x + z :=
  fun _ _ h => (BitVec.add_left_inj z).mp h

theorem add_injective_left (z : BitVec w) : Function.Injective fun x : BitVec w => z + x :=
  fun _ _ h => (BitVec.add_right_inj z).mp h

/-- The upper part of a word, exclusive or with it. -/
theorem xorShift_injective {n : Nat} (hn : 0 < n) :
    Function.Injective fun x : BitVec w => x ^^^ (x >>> n) := by
  intro x y hxy
  -- from the highest bit down
  have hbits : ∀ k, ∀ i, w ≤ i + k → x.getLsbD i = y.getLsbD i := by
    intro k
    induction k with
    | zero =>
      intro i hi
      rw [BitVec.getLsbD_of_ge x i hi, BitVec.getLsbD_of_ge y i hi]
    | succ k ih =>
      intro i hi
      have hbit := congrArg (fun z => z.getLsbD i) hxy
      simp only [BitVec.getLsbD_xor, BitVec.getLsbD_ushiftRight] at hbit
      rw [ih (n + i) (by omega)] at hbit
      exact Bool.xor_right_inj.mp (by rw [Bool.xor_comm, hbit, Bool.xor_comm])
  exact BitVec.eq_of_getLsbD_eq fun i _ => hbits w i (Nat.le_add_left w i)

theorem rotate_injective {n : Nat} (hn : n ≤ w) :
    Function.Injective fun x : BitVec w => (x <<< n) ||| (x >>> (w - n)) := by
  intro x y hxy
  refine BitVec.eq_of_getLsbD_eq fun i hi => ?_
  by_cases hup : i + n < w
  · have hbit := congrArg (fun z => z.getLsbD (i + n)) hxy
    simp only [BitVec.getLsbD_or, BitVec.getLsbD_shiftLeft, BitVec.getLsbD_ushiftRight] at hbit
    rw [BitVec.getLsbD_of_ge x (w - n + (i + n)) (by omega),
      BitVec.getLsbD_of_ge y (w - n + (i + n)) (by omega)] at hbit
    have hnot : ¬ i + n < n := by omega
    simpa [hup, hnot] using hbit
  · -- the bits that come round
    have hbit := congrArg (fun z => z.getLsbD (i + n - w)) hxy
    simp only [BitVec.getLsbD_or, BitVec.getLsbD_shiftLeft, BitVec.getLsbD_ushiftRight] at hbit
    have hplace : w - n + (i + n - w) = i := by omega
    have hlow : i + n - w < n := by omega
    simpa [hplace, hlow] using hbit

/-- The lowest bit as a mask. -/
theorem neg_and_one (x : BitVec 32) :
    -(x &&& 1#32) = if x.getLsbD 0 then 0xFFFFFFFF#32 else 0#32 := by
  rw [BitVec.and_one_eq_setWidth_ofBool_getLsbD]
  cases x.getLsbD 0 <;> rfl

/-- A shift to the right and the polynomial for the bit that falls out: the highest bit of the
polynomial tells whether it was there. -/
theorem crcRound_injective {poly : BitVec 32} (hpoly : poly.getLsbD 31 = true) :
    Function.Injective fun x : BitVec 32 => (x >>> 1) ^^^ (poly &&& -(x &&& 1#32)) := by
  have htop : ∀ x : BitVec 32, (x >>> 1).getLsbD 31 = false := by
    intro x
    rw [BitVec.getLsbD_ushiftRight]
    exact BitVec.getLsbD_of_ge x _ (by omega)
  have hround : ∀ x : BitVec 32,
      ((x >>> 1) ^^^ (poly &&& -(x &&& 1#32))).getLsbD 31 = x.getLsbD 0 := by
    intro x
    rw [BitVec.getLsbD_xor, htop, neg_and_one, BitVec.getLsbD_and, hpoly]
    cases x.getLsbD 0 <;> rfl
  intro x y hxy
  have hlow : x.getLsbD 0 = y.getLsbD 0 := by
    rw [← hround x, ← hround y]
    exact congrArg (fun z => z.getLsbD 31) hxy
  have hshift : x >>> 1 = y >>> 1 := by
    have hxy' : (x >>> 1) ^^^ (poly &&& -(x &&& 1#32)) =
        (y >>> 1) ^^^ (poly &&& -(y &&& 1#32)) := hxy
    rw [neg_and_one, neg_and_one, hlow] at hxy'
    exact (BitVec.xor_left_inj _).mp hxy'
  refine BitVec.eq_of_getLsbD_eq fun i hi => ?_
  cases i with
  | zero => exact hlow
  | succ i =>
    have hbit := congrArg (fun z => z.getLsbD i) hshift
    simp only [BitVec.getLsbD_ushiftRight] at hbit
    rwa [Nat.add_comm] at hbit

end CLib
