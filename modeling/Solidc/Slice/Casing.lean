import Solidc.Lib.Buffer
import Solidc.Lib.CNumber
import Solidc.Lib.CString
import Solidc.Slice.Views
import Mathlib.Data.List.Forall2
import Mathlib.Data.BitVec

/-! # Comparing without regard to case

`ss_equal_nocase` sets the bit 0x20 in every byte of both slices, whatever the byte is; that bit is
the case of a letter. `str_iequals` changes upper case letters only. Bytes that are no letters and
differ in this bit alone, such as `@` and the backquote, are equal to the first and not to the
second.

* `strIequals_eq` — `str_iequals` is right on all strings;
* `ssEqualNocase_eq` — what `ss_equal_nocase` compares;
* `ssToBool_eq` — `ss_to_bool` compares with letters only, which is safe;
* `nocase_agree_iff` — for which strings both comparisons are the same.
-/

namespace Solidc.Slice

open CLib

/-! ## The code -/

/-- A slice with the memory behind its address; there is none behind NULL. -/
structure MemSlice where
  data : Option CMem
  len : Nat

/-- `s.data[i]`. -/
def MemSlice.rd (s : MemSlice) (i : Nat) : Option UInt8 := s.data.bind (·.rd i)

def ssFromCstr : Option CString → MemSlice
  | none => ⟨none, 0⟩
  | some cstr => ⟨some cstr.mem, cstr.len⟩

/-- `SS_LIT`. -/
def ssLit (literal : List UInt8) : MemSlice := ⟨some (literal ++ [0]), literal.length⟩

/-- `ss_equal`; `same` tells whether the addresses are equal. -/
def ssEqual (same : Bool) (a b : MemSlice) : Option Bool :=
  if a.len ≠ b.len then some false
  else if same then some true
  else do
    let x ← load (← a.data) 0 a.len
    let y ← load (← b.data) 0 a.len
    some (x == y)

/-- The loop of `ss_equal_nocase` from `i` on, for `k` rounds. -/
def nocaseLoop (a b : MemSlice) (i : Nat) : Nat → Option Bool
  | 0 => some true
  | k + 1 => do
    let ca ← a.rd i
    let cb ← b.rd i
    if ca ||| 32 ≠ cb ||| 32 then some false else nocaseLoop a b (i + 1) k

def ssEqualNocase (a b : MemSlice) : Option Bool :=
  if a.len ≠ b.len then some false else nocaseLoop a b 0 a.len

/-- The loop of `str_iequals`, with what the pointers can read from there on. -/
def iequalsLoop : CMem → CMem → Option Bool
  | ca :: a, cb :: b =>
    if ca ≠ 0 ∧ cb ≠ 0 then
      -- the loop goes on while neither string is at its end
      if toLower ca ≠ toLower cb then some false else iequalsLoop a b
    else some (ca = 0 && cb = 0)
  | _, _ => none

/-- `str_iequals`; `same` tells whether the pointers are equal. -/
def strIequals (same : Bool) (a b : Option CMem) : Option Bool :=
  if same then some true
  else
    match a, b with
    | some a, some b => iequalsLoop a b
    | _, _ => some false

/-- The comparisons of a slice with words, in their order, up to the first that holds. -/
def anyOf : List (Option Bool) → Option Bool
  | [] => some false
  | test :: rest => do if ← test then some true else anyOf rest

/-- `ss_to_bool`: what it returns, and what it writes to `out`, unless that is NULL. No slice has
the address of a literal. -/
def ssToBool (s : MemSlice) (out : Bool) : Option (StrSliceErr × Option Bool) :=
  if out = false then some (.null, none)
  else do
    if ← anyOf [ssEqualNocase s (ssLit [0x74, 0x72, 0x75, 0x65]),
        ssEqualNocase s (ssLit [0x79, 0x65, 0x73]), ssEqualNocase s (ssLit [0x6F, 0x6E]),
        ssEqual false s (ssLit [0x31])] then some (.ok, some true)
    else if ← anyOf [ssEqualNocase s (ssLit [0x66, 0x61, 0x6C, 0x73, 0x65]),
        ssEqualNocase s (ssLit [0x6E, 0x6F]), ssEqualNocase s (ssLit [0x6F, 0x66, 0x66]),
        ssEqual false s (ssLit [0x30])] then some (.ok, some false)
    else some (.invalid, none)

/-! ## Bytes -/

variable {c d : UInt8}

/-- `isalpha`. -/
def IsLetter (c : UInt8) : Prop := (0x41 ≤ c ∧ c ≤ 0x5A) ∨ (0x61 ≤ c ∧ c ≤ 0x7A)

/-- The same byte, or the same ASCII letter in both cases. -/
def SameLetter (c d : UInt8) : Prop :=
  c = d ∨ ((0x41 ≤ c ∧ c ≤ 0x5A) ∧ d = c + 0x20) ∨ ((0x41 ≤ d ∧ d ≤ 0x5A) ∧ c = d + 0x20)

/-- Equal but for the bit 0x20. -/
def SameUpToBit (c d : UInt8) : Prop := c ||| 32 = d ||| 32

instance : DecidableRel SameUpToBit := fun _ _ => inferInstanceAs (Decidable (_ = _))

instance : DecidableRel SameLetter := fun _ _ => inferInstanceAs (Decidable (_ ∨ _))

instance (c : UInt8) : Decidable (IsLetter c) := inferInstanceAs (Decidable (_ ∨ _))

theorem setBit_toNat (c : UInt8) :
    (c ||| 32).toNat = if c.toNat / 32 % 2 = 0 then c.toNat + 32 else c.toNat := by
  have hall : ∀ x : BitVec 8,
      (x ||| 32).toNat = if x.toNat / 32 % 2 = 0 then x.toNat + 32 else x.toNat := by
    decide +kernel
  exact hall c.toBitVec

theorem toLower_toNat (c : UInt8) :
    (toLower c).toNat = if 0x41 ≤ c.toNat ∧ c.toNat ≤ 0x5A then c.toNat + 0x20 else c.toNat := by
  have hc := c.toNat_lt
  simp only [toLower, Bool.and_eq_true, decide_eq_true_eq, UInt8.le_iff_toNat_le, UInt8.reduceToNat]
  split
  · simp only [UInt8.toNat_add, UInt8.reduceToNat]
    omega
  · rfl

theorem sameLetter_iff_toNat : SameLetter c d ↔ c.toNat = d.toNat ∨
    ((0x41 ≤ c.toNat ∧ c.toNat ≤ 0x5A) ∧ d.toNat = c.toNat + 0x20) ∨
      ((0x41 ≤ d.toNat ∧ d.toNat ≤ 0x5A) ∧ c.toNat = d.toNat + 0x20) := by
  have hc := c.toNat_lt
  have hd := d.toNat_lt
  simp only [SameLetter, ← UInt8.toNat_inj, UInt8.le_iff_toNat_le, UInt8.toNat_add,
    UInt8.reduceToNat]
  omega

theorem toLower_eq_iff : toLower c = toLower d ↔ SameLetter c d := by
  rw [← UInt8.toNat_inj, toLower_toNat, toLower_toNat, sameLetter_iff_toNat]
  split
  · split
    · omega
    · omega
  · split
    · omega
    · omega

/-- A letter in both cases differs in the bit only. -/
theorem SameLetter.sameUpToBit (h : SameLetter c d) : SameUpToBit c d := by
  have hc := setBit_toNat c
  have hd := setBit_toNat d
  rw [sameLetter_iff_toNat] at h
  rw [SameUpToBit, ← UInt8.toNat_inj, hc, hd]
  split
  · split
    · omega
    · omega
  · split
    · omega
    · omega

/-- The bit is the case of letters, and of nothing else. -/
theorem SameUpToBit.sameLetter_iff (h : SameUpToBit c d) : SameLetter c d ↔ c = d ∨ IsLetter c := by
  have hc := setBit_toNat c
  have hd := setBit_toNat d
  rw [SameUpToBit, ← UInt8.toNat_inj, hc, hd] at h
  simp only [sameLetter_iff_toNat, IsLetter, ← UInt8.toNat_inj, UInt8.le_iff_toNat_le,
    UInt8.reduceToNat]
  split at h
  · split at h
    · omega
    · omega
  · split at h
    · omega
    · omega

/-! ## The comparisons -/

variable {a b : MemSlice} {xs ys : List UInt8} {i k : Nat}

/-- The slice is on these bytes. -/
def MemSlice.Covers (s : MemSlice) (xs : List UInt8) : Prop :=
  s.len = xs.length ∧ (xs = [] ∨ ∃ rest, s.data = some (xs ++ rest))

theorem MemSlice.Covers.rd_eq (h : a.Covers xs) (hi : i < xs.length) : a.rd i = some xs[i] := by
  obtain ⟨-, hempty | ⟨rest, hdata⟩⟩ := h
  · rw [hempty] at hi
    exact absurd hi (Nat.not_lt_zero i)
  · rw [MemSlice.rd, hdata, Option.bind_some, CMem.rd, List.getElem?_append_left hi,
      List.getElem?_eq_getElem hi]

theorem ssFromCstr_covers (s : CString) : (ssFromCstr (some s)).Covers s.bytes :=
  ⟨rfl, .inr ⟨[0], rfl⟩⟩

theorem ssLit_covers (w : List UInt8) : (ssLit w).Covers w := ⟨rfl, .inr ⟨[0], rfl⟩⟩

theorem nocaseLoop_eq (ha : a.Covers xs) (hb : b.Covers ys) (hlen : xs.length = ys.length)
    (hk : i + k = xs.length) : nocaseLoop a b i k =
      some (decide (List.Forall₂ SameUpToBit (xs.drop i) (ys.drop i))) := by
  induction k generalizing i with
  | zero =>
    rw [nocaseLoop, List.drop_eq_nil_of_le (by omega), List.drop_eq_nil_of_le (by omega)]
    simp
  | succ k ih =>
    have hx : i < xs.length := by omega
    have hy : i < ys.length := by omega
    have hnext := ih (i := i + 1) (by omega)
    rw [nocaseLoop, ha.rd_eq hx, hb.rd_eq hy, List.drop_eq_getElem_cons hx,
      List.drop_eq_getElem_cons hy]
    simp only [Option.bind_eq_bind, Option.bind_some, List.forall₂_cons]
    by_cases hbit : xs[i] ||| 32 = ys[i] ||| 32
    · have hsame : SameUpToBit xs[i] ys[i] := hbit
      rw [if_neg (not_not.mpr hbit), hnext]
      simp [hsame]
    · have hdiff : ¬ SameUpToBit xs[i] ys[i] := hbit
      rw [if_pos hbit]
      simp [hdiff]

theorem ssEqualNocase_eq (ha : a.Covers xs) (hb : b.Covers ys) :
    ssEqualNocase a b = some (decide (List.Forall₂ SameUpToBit xs ys)) := by
  unfold ssEqualNocase
  rw [ha.1, hb.1]
  by_cases hlen : xs.length = ys.length
  · rw [if_neg (not_not.mpr hlen), nocaseLoop_eq ha hb hlen (Nat.zero_add _)]
    rfl
  · have hnot : ¬ List.Forall₂ SameUpToBit xs ys := fun h => hlen h.length_eq
    rw [if_pos hlen, decide_eq_false hnot]

/-- `str_iequals` reads both strings up to the first terminator. -/
theorem iequalsLoop_eq (hx : 0 ∉ xs) (hy : 0 ∉ ys) : iequalsLoop (xs ++ [0]) (ys ++ [0]) =
    some (decide (List.Forall₂ SameLetter xs ys)) := by
  induction xs generalizing ys with
  | nil =>
    cases ys with
    | nil => rfl
    | cons d ys =>
      have hd : d ≠ 0 := fun h => hy (h ▸ List.mem_cons_self)
      rw [List.nil_append, List.cons_append, iequalsLoop, if_neg fun h => h.1 rfl]
      simp [hd]
  | cons c xs ih =>
    have hc : c ≠ 0 := fun h => hx (h ▸ List.mem_cons_self)
    cases ys with
    | nil =>
      rw [List.nil_append, List.cons_append, iequalsLoop, if_neg fun h => h.2 rfl]
      simp [hc]
    | cons d ys =>
      have hd : d ≠ 0 := fun h => hy (h ▸ List.mem_cons_self)
      have hrest := ih (fun h => hx (List.mem_cons_of_mem c h))
        (fun h => hy (List.mem_cons_of_mem d h))
      rw [List.cons_append, List.cons_append, iequalsLoop, if_pos ⟨hc, hd⟩]
      simp only [List.forall₂_cons]
      by_cases hsame : toLower c = toLower d
      · rw [if_neg (not_not.mpr hsame), hrest]
        simp [toLower_eq_iff.mp hsame]
      · rw [if_pos hsame]
        simp [mt toLower_eq_iff.mpr hsame]

/-- `str_iequals` on two strings; equal pointers lead to the same one. -/
theorem strIequals_eq (s t : CString) {same : Bool} (hsame : same = true → s.bytes = t.bytes) :
    strIequals same (some s.mem) (some t.mem) =
      some (decide (List.Forall₂ SameLetter s.bytes t.bytes)) := by
  unfold strIequals
  -- equal pointers are not looked behind
  cases same with
  | false => exact iequalsLoop_eq s.nulFree t.nulFree
  | true =>
    have hrefl : List.Forall₂ SameLetter s.bytes t.bytes := by
      rw [hsame rfl]
      exact List.forall₂_same.mpr fun c _ => .inl rfl
    rw [if_pos rfl, decide_eq_true hrefl]

/-! ## Where the bit matters -/

/-- Strings that are equal up to the bit are equal up to case where they differ in letters. -/
theorem forall_sameLetter_iff (h : List.Forall₂ SameUpToBit xs ys) :
    List.Forall₂ SameLetter xs ys ↔ ∀ p ∈ xs.zip ys, p.1 = p.2 ∨ IsLetter p.1 := by
  induction h with
  | nil => simp
  | cons hcd _ ih => simp [ih, hcd.sameLetter_iff]

theorem forall_sameUpToBit (h : List.Forall₂ SameLetter xs ys) : List.Forall₂ SameUpToBit xs ys :=
  h.imp fun _ _ => SameLetter.sameUpToBit

/-- Against letters the bit is the case. -/
theorem sameUpToBit_letter_iff (hd : IsLetter d) : SameUpToBit c d ↔ SameLetter c d := by
  refine ⟨fun h => ?_, SameLetter.sameUpToBit⟩
  have hswap : SameUpToBit d c := Eq.symm h
  rcases hswap.sameLetter_iff.mpr (.inr hd) with heq | hupper | hlower
  · exact .inl heq.symm
  · exact .inr (.inr hupper)
  · exact .inr (.inl hlower)

theorem forall_sameUpToBit_letters_iff (hys : ∀ d ∈ ys, IsLetter d) :
    List.Forall₂ SameUpToBit xs ys ↔ List.Forall₂ SameLetter xs ys := by
  induction ys generalizing xs with
  | nil => simp
  | cons d ys ih =>
    have hd : IsLetter d := hys d List.mem_cons_self
    have htail : ∀ d ∈ ys, IsLetter d := fun d h => hys d (List.mem_cons_of_mem _ h)
    cases xs with
    | nil => simp
    | cons c xs =>
      rw [List.forall₂_cons, List.forall₂_cons, sameUpToBit_letter_iff hd, ih htail]

/-! ## Booleans -/

/-- A word of letters in any case. -/
theorem ssEqualNocase_word (ha : a.Covers xs) (hys : ys.all (decide <| IsLetter ·) = true) :
    ssEqualNocase a (ssLit ys) = some (decide (List.Forall₂ SameLetter xs ys)) := by
  have hletters : ∀ d ∈ ys, IsLetter d :=
    fun d hd => of_decide_eq_true (List.all_eq_true.mp hys d hd)
  simp only [ssEqualNocase_eq ha (ssLit_covers ys), forall_sameUpToBit_letters_iff hletters]

theorem ssEqual_lit (ha : a.Covers xs) (hys : ys ≠ []) :
    ssEqual false a (ssLit ys) = some (decide (xs = ys)) := by
  unfold ssEqual
  rw [ha.1, (ssLit_covers ys).1]
  by_cases hlen : xs.length = ys.length
  · have hpos : 0 < ys.length := List.length_pos_iff.mpr hys
    obtain ⟨-, hempty | ⟨rest, hdata⟩⟩ := ha
    · rw [hempty, List.length_nil] at hlen
      omega
    · have hx : load (xs ++ rest) 0 xs.length = some xs := by
        rw [load_eq (by simp), List.drop_zero, List.take_left]
      have hy : load (ys ++ [0]) 0 xs.length = some ys := by
        rw [hlen, load_eq (by simp), List.drop_zero, List.take_left]
      have hlit : (ssLit ys).data = some (ys ++ [0]) := rfl
      rw [if_neg (not_not.mpr hlen), if_neg Bool.false_ne_true, hdata, hlit]
      simp only [Option.bind_eq_bind, Option.bind_some, hx, hy, beq_eq_decide]
  · have hne : xs ≠ ys := fun h => hlen (congrArg List.length h)
    rw [if_pos hlen, decide_eq_false hne]

theorem anyOf_map_some (tests : List Bool) : anyOf (tests.map some) = some (tests.any id) := by
  induction tests with
  | nil => rfl
  | cons test tests ih =>
    cases test with
    | true => rfl
    | false => exact ih

/-- `true`, `yes`, `on`, in any case, or `1`. -/
def TrueWord (xs : List UInt8) : Prop :=
  List.Forall₂ SameLetter xs [0x74, 0x72, 0x75, 0x65] ∨
    List.Forall₂ SameLetter xs [0x79, 0x65, 0x73] ∨
      List.Forall₂ SameLetter xs [0x6F, 0x6E] ∨ xs = [0x31]

/-- `false`, `no`, `off`, in any case, or `0`. -/
def FalseWord (xs : List UInt8) : Prop :=
  List.Forall₂ SameLetter xs [0x66, 0x61, 0x6C, 0x73, 0x65] ∨
    List.Forall₂ SameLetter xs [0x6E, 0x6F] ∨
      List.Forall₂ SameLetter xs [0x6F, 0x66, 0x66] ∨ xs = [0x30]

instance (xs : List UInt8) : Decidable (TrueWord xs) := inferInstanceAs (Decidable (_ ∨ _))

instance (xs : List UInt8) : Decidable (FalseWord xs) := inferInstanceAs (Decidable (_ ∨ _))

/-- No slice is taken for a word that it is not: the words have letters only. -/
theorem ssToBool_eq (ha : a.Covers xs) : ssToBool a true =
    some (if TrueWord xs then (.ok, some true) else if FalseWord xs then (.ok, some false)
      else (.invalid, none)) := by
  have htrue : anyOf [ssEqualNocase a (ssLit [0x74, 0x72, 0x75, 0x65]),
      ssEqualNocase a (ssLit [0x79, 0x65, 0x73]), ssEqualNocase a (ssLit [0x6F, 0x6E]),
      ssEqual false a (ssLit [0x31])] = some (decide (TrueWord xs)) := by
    rw [ssEqualNocase_word ha (by decide), ssEqualNocase_word ha (by decide),
      ssEqualNocase_word ha (by decide), ssEqual_lit ha (by decide)]
    refine (anyOf_map_some [_, _, _, _]).trans (congrArg some (Bool.eq_iff_iff.mpr ?_))
    rw [decide_eq_true_iff]
    simp [TrueWord]
  have hfalse : anyOf [ssEqualNocase a (ssLit [0x66, 0x61, 0x6C, 0x73, 0x65]),
      ssEqualNocase a (ssLit [0x6E, 0x6F]), ssEqualNocase a (ssLit [0x6F, 0x66, 0x66]),
      ssEqual false a (ssLit [0x30])] = some (decide (FalseWord xs)) := by
    rw [ssEqualNocase_word ha (by decide), ssEqualNocase_word ha (by decide),
      ssEqualNocase_word ha (by decide), ssEqual_lit ha (by decide)]
    refine (anyOf_map_some [_, _, _, _]).trans (congrArg some (Bool.eq_iff_iff.mpr ?_))
    rw [decide_eq_true_iff]
    simp [FalseWord]
  unfold ssToBool
  rw [if_neg Bool.noConfusion, htrue, hfalse]
  simp only [Option.bind_eq_bind, Option.bind_some, decide_eq_true_eq]
  split
  · rfl
  · split
    · rfl
    · rfl

/-! ## Agreement -/

/-- Both comparisons return, and they hold for strings that are equal up to the case of ASCII
letters, and for no others. -/
def NocaseAgree (same : Bool) (s t : CString) : Prop :=
  ∃ x y, ssEqualNocase (ssFromCstr (some s)) (ssFromCstr (some t)) = some x ∧
    strIequals same (some s.mem) (some t.mem) = some y ∧
      (x = true ↔ y = true) ∧ (y = true ↔ List.Forall₂ SameLetter s.bytes t.bytes)

/-- The comparisons agree, unless the strings are equal up to the bit and differ in bytes that are
no letters. -/
theorem nocase_agree_iff (s t : CString) (same : Bool) (hsame : same = true → s.bytes = t.bytes) :
    NocaseAgree same s t ↔ ¬ (List.Forall₂ SameUpToBit s.bytes t.bytes ∧
      ∃ p ∈ s.bytes.zip t.bytes, p.1 ≠ p.2 ∧ ¬ IsLetter p.1) := by
  have hnocase := ssEqualNocase_eq (ssFromCstr_covers s) (ssFromCstr_covers t)
  have hiequals := strIequals_eq s t hsame
  have hagree : NocaseAgree same s t ↔
      (List.Forall₂ SameUpToBit s.bytes t.bytes ↔ List.Forall₂ SameLetter s.bytes t.bytes) := by
    unfold NocaseAgree
    rw [hnocase, hiequals]
    constructor
    · rintro ⟨x, y, hx, hy, hxy, hright⟩
      cases hx
      cases hy
      simpa only [decide_eq_true_eq] using hxy
    · intro h
      refine ⟨_, _, rfl, rfl, ?_, decide_eq_true_iff⟩
      simpa only [decide_eq_true_eq] using h
  rw [hagree]
  constructor
  · -- such a pair would be a letter after all
    rintro h ⟨hbit, p, hp, hne, hletter⟩
    rcases (forall_sameLetter_iff hbit).mp (h.mp hbit) p hp with heq | hp'
    · exact hne heq
    · exact hletter hp'
  · intro h
    refine ⟨fun hbit => (forall_sameLetter_iff hbit).mpr fun p hp => ?_, forall_sameUpToBit⟩
    by_contra hnot
    exact h ⟨hbit, p, hp, not_or.mp hnot⟩

/-- `Go` and `gO` -/
theorem nocase_agree_go :
    NocaseAgree false ⟨[0x47, 0x6F], by decide⟩ ⟨[0x67, 0x4F], by decide⟩ := by
  refine (nocase_agree_iff _ _ false Bool.noConfusion).mpr ?_
  decide

/-- `@` and a backquote are equal to `ss_equal_nocase`. -/
theorem nocase_at_backquote :
    ssEqualNocase (ssFromCstr (some ⟨[0x40], by decide⟩)) (ssFromCstr (some ⟨[0x60], by decide⟩)) =
      some true ∧
    strIequals false (some [0x40, 0]) (some [0x60, 0]) = some false ∧
    ¬ NocaseAgree false ⟨[0x40], by decide⟩ ⟨[0x60], by decide⟩ := by
  have hnocase : ssEqualNocase (ssFromCstr (some ⟨[0x40], by decide⟩))
      (ssFromCstr (some ⟨[0x60], by decide⟩)) = some true := by
    decide
  have hiequals : strIequals false (some [0x40, 0]) (some [0x60, 0]) = some false := by decide
  refine ⟨hnocase, hiequals, ?_⟩
  rintro ⟨x, y, hx, hy, hxy, -⟩
  rw [hnocase] at hx
  change strIequals false (some [0x40, 0]) (some [0x60, 0]) = some y at hy
  rw [hiequals] at hy
  cases hx
  cases hy
  exact absurd (hxy.mp rfl) Bool.false_ne_true

end Solidc.Slice
