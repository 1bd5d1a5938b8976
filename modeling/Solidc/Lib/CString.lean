import Mathlib.Data.List.Basic

/-! # NUL-terminated strings

A C string is a list of non-zero bytes; what a pointer to it can see is those
bytes followed by the terminator. Reading past the terminator has no value:
`CMem.rd` is `none` there, so a function that returns `some _` on a string has
not touched a byte beyond its NUL.
-/

namespace CLib

/-- Memory from a pointer on, up to the end of the object it points into. -/
abbrev CMem := List UInt8

/-- `p[i]`, undefined past the end of the object. -/
def CMem.rd (p : CMem) (i : Nat) : Option UInt8 := p[i]?

/-- A NUL-terminated string: the terminator is the first zero byte. -/
structure CString where
  bytes : List UInt8
  nulFree : (0 : UInt8) ∉ bytes

/-- The empty string has no NUL. -/
theorem nul_not_mem_nil : (0 : UInt8) ∉ [] := List.not_mem_nil

/-- The bytes a pointer to the string can read: the string and its NUL. -/
def CString.mem (s : CString) : CMem := s.bytes ++ [0]

/-- `strlen`. -/
def CString.len (s : CString) : Nat := s.bytes.length

/-- The C string stored in a buffer: what stands before its first NUL. -/
def cstrOf (buf : List UInt8) : List UInt8 := buf.takeWhile (· ≠ 0)

/-- `strrchr` for a byte other than NUL: the part of the string from its last `c` on. -/
def strrchr (c : UInt8) : List UInt8 → Option (List UInt8)
  | [] => none
  | b :: l => (strrchr c l).or (if b = c then some (b :: l) else none)

@[simp] theorem rd_cons_zero (b : UInt8) (p : CMem) : CMem.rd (b :: p) 0 = some b := rfl

@[simp] theorem rd_cons_succ (b : UInt8) (p : CMem) (i : Nat) :
    CMem.rd (b :: p) (i + 1) = CMem.rd p i := rfl

@[simp] theorem rd_nil (i : Nat) : CMem.rd [] i = none := by
  simp [CMem.rd]

/-- A string with its terminator, whatever stands behind them. -/
theorem cstrOf_append {l rest : List UInt8} (h : 0 ∉ l) : cstrOf (l ++ 0 :: rest) = l := by
  have hall : ∀ b ∈ l, decide (b ≠ 0) = true :=
    fun b hb => decide_eq_true fun hzero => h (hzero ▸ hb)
  rw [cstrOf, List.takeWhile_append_of_pos hall]
  simp

/-- The first place of a byte that the part in front of it does not have. -/
theorem idxOf?_append {c : UInt8} {l : List UInt8} (h : c ∉ l) (rest : List UInt8) :
    (l ++ c :: rest).idxOf? c = some l.length := by
  refine List.idxOf?_eq_some_iff.mpr ⟨by simp, ?_, fun j hj hc => ?_⟩
  · rw [List.getElem_append_right (Nat.le_refl _)]
    simp
  · rw [List.getElem_append_left hj] at hc
    exact h (hc ▸ List.getElem_mem hj)

/-- What `strlen` finds. -/
theorem idxOf?_zero {l rest : List UInt8} (h : (0 : UInt8) ∉ l) :
    (l ++ 0 :: rest).idxOf? 0 = some l.length :=
  idxOf?_append h rest

/-- A buffer holding a NUL-free string and its terminator stores that string. -/
theorem cstrOf_terminated {l : List UInt8} (h : ∀ b ∈ l, b ≠ 0) : cstrOf (l ++ [0]) = l :=
  cstrOf_append fun hzero => h 0 hzero rfl

theorem strrchr_eq_none_iff {c : UInt8} {l : List UInt8} : strrchr c l = none ↔ c ∉ l := by
  induction l with
  | nil => simp [strrchr]
  | cons b l ih =>
    by_cases h : b = c
    · simp [strrchr, h]
    · simp [strrchr, h, ih, Ne.symm h]

/-- No `c` stands behind the last one. -/
theorem strrchr_append {c : UInt8} {r : List UInt8} (h : c ∉ r) (l : List UInt8) :
    strrchr c (l ++ c :: r) = some (c :: r) := by
  induction l with
  | nil => simp [strrchr, strrchr_eq_none_iff.mpr h]
  | cons b l ih => simp [strrchr, ih]

theorem exists_last {c : UInt8} {l : List UInt8} (h : c ∈ l) :
    ∃ l₁ l₂, l = l₁ ++ c :: l₂ ∧ c ∉ l₂ := by
  induction l with
  | nil => cases h
  | cons b l ih =>
    by_cases hl : c ∈ l
    · obtain ⟨l₁, l₂, rfl, hlast⟩ := ih hl
      exact ⟨b :: l₁, l₂, rfl, hlast⟩
    · obtain rfl : c = b := (List.mem_cons.mp h).resolve_right hl
      exact ⟨[], l, rfl, hl⟩

end CLib
