import Solidc.Lib.Buffer
import Solidc.Text.Cstr

/-! # References to the environment

`interpolate` of `dotenv.c` copies a string into a buffer and replaces `${NAME}` on the way. Its
loop ends at the end of the string or when the buffer is full; what is left then is an error, even
if nothing would come of it.

* `written_pieces` — a string is its pieces, one after the other;
* `interpolateLoop_eq` — the loop on what is left of the string, with the buffer so far;
* `interpolate_exact_iff` — it accepts the expansions that fit, except where the buffer is full
  before references that expand to nothing.
-/

namespace Solidc.Dotenv

open CLib Text

/-! ## The code -/

def maxVarNameLen : Nat := 256

/-- The variables; an unset one has no value. -/
abbrev Environment : Type := List UInt8 → Option CText

/-- `strchr(p, c)`, as an offset from `p`. -/
def strchr (c : UInt8) : CMem → Option (Option Nat)
  | [] => none
  | b :: p =>
    if b = c then some (some 0)
    else if b = 0 then some none
    else (strchr c p).map (·.map (· + 1))

/-- `*ptr == '$' && *(ptr + 1) == '{'` -/
def startsReference (ptr : CMem) : Option Bool := do
  if (← ptr.rd 0) = 0x24 then some ((← ptr.rd 1) = 0x7B) else some false

/-- `end - start` for a reference at `ptr`, where there is one and it is closed. -/
def referenceEnd (ptr : CMem) : Option (Option Nat) := do
  if ← startsReference ptr then strchr 0x7D (ptr.drop 2) else some none

/-- The reference at `ptr` with a name of `n` bytes: the buffer, and the bytes in it, with its value
behind them; there is no buffer when the function returns. -/
def substitute (getenv : Environment) (resultSize : Nat) (ptr : CMem) (result : List UInt8)
    (resultLen n : Nat) : Option (Option (List UInt8 × Nat)) :=
  -- `${}`
  if n = 0 then some (some (result, resultLen))
  else if n ≥ maxVarNameLen then some none
  else do
    let varName ← load ptr 2 n
    match getenv varName with
    | none => some (some (result, resultLen))
    | some varValue =>
      -- the terminator needs a byte too
      if toSize (resultLen + varValue.len) ≥ resultSize then some none
      else do
        let result ← store result resultLen varValue.bytes
        some (some (result, resultLen + varValue.len))

/-- What follows the loop. -/
def terminate (ptr : CMem) (result : List UInt8) (resultLen : Nat) :
    Option (Bool × List UInt8) := do
  if (← ptr.rd 0) ≠ 0 then some (false, result)
  else do
    let result ← store result resultLen [0]
    some (true, result)

/-- The loop of `interpolate`, with what follows it. -/
def interpolateLoop (getenv : Environment) (resultSize : Nat) :
    Nat → CMem → List UInt8 → Nat → Option (Bool × List UInt8)
  | 0, _, _, _ => none
  | fuel + 1, ptr, result, resultLen => do
    let c ← ptr.rd 0
    if c ≠ 0 ∧ resultLen < resultSize - 1 then do
      match ← referenceEnd ptr with
      | none => do
        -- a regular character, or a reference that is not closed
        let result ← store result resultLen [c]
        interpolateLoop getenv resultSize fuel (ptr.drop 1) result (resultLen + 1)
      | some n =>
        match ← substitute getenv resultSize ptr result resultLen n with
        | none => some (false, result)
        | some (result, resultLen) =>
          interpolateLoop getenv resultSize fuel (ptr.drop (n + 3)) result resultLen
    else terminate ptr result resultLen

/-- `interpolate`, with the buffer afterwards. -/
def interpolate (getenv : Environment) (value : Option CMem) (result : Option (List UInt8))
    (resultSize : Nat) : Option (Bool × Option (List UInt8)) :=
  match value, result with
  | some value, some result =>
    if resultSize = 0 then some (false, some result)
    else do
      let result ← store result 0 (List.replicate resultSize 0)
      let (ok, result) ← interpolateLoop getenv resultSize value.length value result 0
      some (ok, some result)
  | _, result => some (false, result)

/-! ## Expansions -/

/-- A part of a string: a character that stands for itself, or `${name}`. -/
inductive Piece where
  | char (c : UInt8)
  | ref (name : List UInt8)

/-- The length of the name, when the string begins with a reference that is closed. -/
def closing : List UInt8 → Option Nat
  | c :: d :: rest => if c = 0x24 ∧ d = 0x7B then rest.idxOf? 0x7D else none
  | _ => none

def pieces : List UInt8 → List Piece
  | [] => []
  | c :: rest =>
    match closing (c :: rest) with
    | none => .char c :: pieces rest
    | some n => .ref ((rest.drop 1).take n) :: pieces (rest.drop (n + 2))
termination_by l => l.length
decreasing_by
  · simp
  · simp only [List.length_drop, List.length_cons]
    omega

/-- As it is written. -/
def Piece.written : Piece → List UInt8
  | .char c => [c]
  | .ref name => [0x24, 0x7B] ++ (name ++ [0x7D])

/-- What comes of it: nothing without a name, or without a variable of that name. -/
def Piece.text (getenv : Environment) : Piece → List UInt8
  | .char c => [c]
  | .ref name => if name = [] then [] else ((getenv name).map (·.bytes)).getD []

def expansion (getenv : Environment) (ps : List Piece) : List UInt8 :=
  ps.flatMap (Piece.text getenv)

/-- The last piece is a reference that expands to nothing. -/
def EndsInNothing (getenv : Environment) (ps : List Piece) : Prop :=
  ∃ p, ps.getLast? = some p ∧ p.text getenv = []

attribute [local simp] interpolateLoop

variable {getenv : Environment} {resultSize resultLen fuel n : Nat} {c : UInt8}
variable {l rest : List UInt8} {p : Piece} {ps : List Piece}

/-- A reference ends at the first brace. -/
theorem closing_some (h : closing (c :: rest) = some n) : c = 0x24 ∧ n + 2 ≤ rest.length ∧
    rest = 0x7B :: ((rest.drop 1).take n ++ 0x7D :: rest.drop (n + 2)) := by
  cases rest with
  | nil => cases h
  | cons d rest =>
    rw [closing, Option.ite_none_right_eq_some] at h
    obtain ⟨⟨hc, hd⟩, hfirst⟩ := h
    obtain ⟨hn, hbrace, -⟩ := List.idxOf?_eq_some_iff.mp hfirst
    refine ⟨hc, Nat.succ_le_succ hn, ?_⟩
    rw [hd, List.drop_one, List.tail_cons, List.drop_succ_cons]
    rw [← hbrace, ← List.drop_eq_getElem_cons hn, List.take_append_drop]

/-- The pieces are the string. -/
theorem written_pieces (l : List UInt8) : (pieces l).flatMap Piece.written = l := by
  induction l using pieces.induct with
  | case1 => simp [pieces]
  | case2 c rest hclosing ih => simp [pieces, hclosing, Piece.written, ih]
  | case3 c rest n hclosing ih =>
    obtain ⟨hc, -, hrest⟩ := closing_some hclosing
    rw [pieces, hclosing]
    dsimp only
    rw [List.flatMap_cons, ih, Piece.written, hc]
    simpa using hrest.symm

/-! ## The scan -/

theorem strchr_eq (h : 0 ∉ l) (hc : c ≠ 0) : strchr c (l ++ [0]) = some (l.idxOf? c) := by
  induction l with
  | nil => simp [strchr, hc.symm]
  | cons b l ih =>
    have hb : b ≠ 0 := fun hb => h (hb ▸ List.mem_cons_self)
    rw [List.cons_append, strchr, if_neg hb, List.idxOf?_cons]
    by_cases hbc : b = c
    · simp [hbc]
    · simp [hbc, ih fun hl => h (List.mem_cons_of_mem b hl)]

/-- What the loop finds at a character is the end of the name of a reference. -/
theorem referenceEnd_eq (h : 0 ∉ l) (hl : l ≠ []) :
    referenceEnd (l ++ [0]) = some (closing l) := by
  cases l with
  | nil => exact absurd rfl hl
  | cons c rest =>
    unfold referenceEnd startsReference
    by_cases hc : c = 0x24
    · cases rest with
      | nil => simp [closing]
      | cons d rest =>
        have hrest : 0 ∉ rest :=
          fun hmem => h (List.mem_cons_of_mem c (List.mem_cons_of_mem d hmem))
        by_cases hd : d = 0x7B
        · simp [hc, hd, closing, strchr_eq hrest (by decide : (0x7D : UInt8) ≠ 0)]
        · simp [hc, hd, closing]
    · cases rest with
      | nil => simp [closing]
      | cons d rest => simp [hc, closing]

/-- The output with what stands behind it in the block, of which the function may use `resultSize`
bytes. -/
structure Room (resultSize : Nat) (out tail : List UInt8) : Prop where
  len_lt : out.length < resultSize
  size_le : resultSize ≤ (out ++ tail).length
  fits : (out ++ tail).length < 2 ^ 63

section room

variable {out tail text : List UInt8}

theorem Room.length_le (h : Room resultSize out tail)
    (htext : out.length + text.length < resultSize) : text.length ≤ tail.length := by
  have hsize := h.size_le
  rw [List.length_append] at hsize
  omega

/-- The output grows into what stands behind it. -/
theorem Room.append (h : Room resultSize out tail) (htext : out.length + text.length < resultSize) :
    Room resultSize (out ++ text) (tail.drop text.length) := by
  have hle := h.length_le htext
  have hblock : (out ++ text ++ tail.drop text.length).length = (out ++ tail).length := by
    simp only [List.length_append, List.length_drop]
    omega
  refine ⟨?_, hblock ▸ h.size_le, hblock ▸ h.fits⟩
  rwa [List.length_append]

/-- The value goes behind the output, when there is room for it and for the terminator. -/
theorem substitute_eq (h : Room resultSize out tail) (hclosing : closing (c :: rest) = some n)
    (htext : (Piece.ref ((rest.drop 1).take n)).text getenv = text) (hname : n < maxVarNameLen) :
    substitute getenv resultSize (c :: rest ++ [0]) (out ++ tail) out.length n =
      some (if out.length + text.length < resultSize then
        some (out ++ text ++ tail.drop text.length, (out ++ text).length) else none) := by
  obtain ⟨-, hn, -⟩ := closing_some hclosing
  obtain ⟨name, hnameEq⟩ : ∃ name, name = (rest.drop 1).take n := ⟨_, rfl⟩
  have hlen := h.len_lt
  have hnameLen : name.length = n := by
    rw [hnameEq, List.length_take, List.length_drop]
    omega
  have hempty : name = [] ↔ n = 0 := by rw [← List.length_eq_zero_iff, hnameLen]
  rw [← hnameEq, Piece.text] at htext
  unfold substitute
  by_cases hzero : n = 0
  · rw [if_pos (hempty.mpr hzero)] at htext
    rw [if_pos hzero, ← htext, List.length_nil, Nat.add_zero, if_pos hlen]
    simp
  · have hload : load (c :: rest ++ [0]) 2 n = some name := by
      rw [load_eq (by simp; omega), hnameEq]
      simp only [List.cons_append, List.drop_succ_cons]
      rw [List.drop_append_of_le_length (by omega), List.take_append_of_le_length (by simp; omega)]
    rw [if_neg (mt hempty.mp hzero)] at htext
    rw [if_neg hzero, if_neg (Nat.not_le_of_lt hname)]
    simp only [Option.bind_eq_bind, hload, Option.bind_some]
    cases hvalue : getenv name with
    | none =>
      rw [hvalue, Option.map_none, Option.getD_none] at htext
      rw [← htext, List.length_nil, Nat.add_zero, if_pos hlen]
      simp
    | some value =>
      rw [hvalue, Option.map_some, Option.getD_some] at htext
      have hvalueFits := value.fits
      have hlength : value.len = text.length := congrArg List.length htext
      rw [htext] at hvalueFits
      have hsum : toSize (out.length + text.length) = out.length + text.length := by
        have houtFits := h.fits
        rw [List.length_append] at houtFits
        exact Nat.mod_eq_of_lt (by omega)
      dsimp only
      rw [hlength, htext, hsum]
      by_cases hroom : out.length + text.length < resultSize
      · rw [if_neg (Nat.not_le_of_lt hroom), if_pos hroom, store_append (h.length_le hroom)]
        simp
      · rw [if_pos (Nat.le_of_not_lt hroom), if_neg hroom]

end room

/-! ## The loop -/

/-- The text of the pieces fits behind `len` bytes, and does not fill the buffer before the last of
them. -/
def Accepted (getenv : Environment) (resultSize len : Nat) (ps : List Piece) : Prop :=
  len + (expansion getenv ps).length < resultSize ∧
    ¬ (len + (expansion getenv ps).length = resultSize - 1 ∧ EndsInNothing getenv ps)

/-- A piece is taken when the buffer is not full before it. -/
theorem accepted_cons {len : Nat} (h : len < resultSize - 1) :
    Accepted getenv resultSize len (p :: ps) ↔
      Accepted getenv resultSize (len + (p.text getenv).length) ps := by
  -- the last piece decides, and it is the last one with `p` before it, unless there is none
  cases ps with
  | nil =>
    have hnone : ¬ EndsInNothing getenv [] := by
      rintro ⟨q, hq, -⟩
      cases hq
    have hlast : EndsInNothing getenv [p] ↔ (p.text getenv).length = 0 := by
      rw [List.length_eq_zero_iff]
      constructor
      · rintro ⟨q, hq, hnothing⟩
        cases hq
        exact hnothing
      · exact fun hnothing => ⟨p, rfl, hnothing⟩
    simp only [Accepted, hnone, hlast, expansion, List.flatMap_cons, List.flatMap_nil,
      List.append_nil, List.length_nil, and_false, not_false_iff, and_true]
    omega
  | cons q ps =>
    have hlast : EndsInNothing getenv (p :: q :: ps) ↔ EndsInNothing getenv (q :: ps) := by
      unfold EndsInNothing
      rw [List.getLast?_cons_cons]
    have hlength : (expansion getenv (p :: q :: ps)).length =
        (p.text getenv).length + (expansion getenv (q :: ps)).length := by
      rw [expansion, List.flatMap_cons, List.length_append, expansion]
    unfold Accepted
    rw [hlast, hlength, Nat.add_assoc]

/-- Nothing is taken when the buffer is full. -/
theorem not_accepted_full : ¬ Accepted getenv resultSize (resultSize - 1) (p :: ps) := by
  rintro ⟨hfits, hlast⟩
  have hnothing : (expansion getenv (p :: ps)).length = 0 := by omega
  have hall : ∀ q ∈ p :: ps, q.text getenv = [] :=
    List.flatMap_eq_nil_iff.mp (List.length_eq_zero_iff.mp hnothing)
  have hne : p :: ps ≠ [] := List.cons_ne_nil p ps
  exact hlast ⟨by omega, (p :: ps).getLast hne, List.getLast?_eq_some_getLast hne,
    hall _ (List.getLast_mem hne)⟩

/-- The end of a run with `out` in the buffer and these pieces before it. -/
def Finishes (getenv : Environment) (resultSize : Nat) (out : List UInt8) (ps : List Piece)
    (r : Option (Bool × List UInt8)) : Prop :=
  ∃ ok mem, r = some (ok, mem) ∧ (ok = true ↔ Accepted getenv resultSize out.length ps) ∧
    (ok = true → ∃ tail, mem = out ++ expansion getenv ps ++ 0 :: tail)

theorem Finishes.failed {out mem : List UInt8} (h : ¬ Accepted getenv resultSize out.length ps) :
    Finishes getenv resultSize out ps (some (false, mem)) :=
  ⟨false, mem, rfl, iff_of_false Bool.false_ne_true h, fun hok => absurd hok Bool.false_ne_true⟩

/-- A piece before the run. -/
theorem Finishes.cons {out : List UInt8} {r : Option (Bool × List UInt8)}
    (h : out.length < resultSize - 1)
    (hrun : Finishes getenv resultSize (out ++ p.text getenv) ps r) :
    Finishes getenv resultSize out (p :: ps) r := by
  obtain ⟨ok, mem, hr, hok, hmem⟩ := hrun
  refine ⟨ok, mem, hr, ?_, ?_⟩
  · rw [hok, accepted_cons h, List.length_append]
  · intro htrue
    obtain ⟨tail, htail⟩ := hmem htrue
    exact ⟨tail, by rw [htail, expansion, expansion, List.flatMap_cons, List.append_assoc out]⟩

section loop

variable {out tail : List UInt8}

theorem loop_full {result : List UInt8} (hc : c ≠ 0) (hfull : ¬ resultLen < resultSize - 1) :
    interpolateLoop getenv resultSize (fuel + 1) (c :: rest ++ [0]) result resultLen =
      some (false, result) := by
  have hnot : ¬ (c ≠ 0 ∧ resultLen < resultSize - 1) := fun h => hfull h.2
  rw [interpolateLoop, List.cons_append, rd_cons_zero]
  simp only [Option.bind_eq_bind, Option.bind_some]
  rw [if_neg hnot, terminate, rd_cons_zero]
  simp [hc]

theorem loop_nil (h : Room resultSize out tail) :
    interpolateLoop getenv resultSize (fuel + 1) [0] (out ++ tail) out.length =
      some (true, out ++ 0 :: tail.drop 1) := by
  have hroom : [(0 : UInt8)].length ≤ tail.length := by
    have hlen := h.len_lt
    have hsize := h.size_le
    rw [List.length_append] at hsize
    rw [List.length_singleton]
    omega
  have hend : ¬ ((0 : UInt8) ≠ 0 ∧ out.length < resultSize - 1) := fun h => h.1 rfl
  rw [interpolateLoop, rd_cons_zero]
  simp only [Option.bind_eq_bind, Option.bind_some]
  rw [if_neg hend, terminate, rd_cons_zero, store_append hroom]
  rfl

theorem loop_char (h : Room resultSize out tail) (h0 : 0 ∉ c :: rest)
    (hclosing : closing (c :: rest) = none) (hlen : out.length < resultSize - 1) :
    interpolateLoop getenv resultSize (fuel + 1) (c :: rest ++ [0]) (out ++ tail) out.length =
      interpolateLoop getenv resultSize fuel (rest ++ [0]) (out ++ [c] ++ tail.drop 1)
        (out ++ [c]).length := by
  have hc : c ≠ 0 := fun hc => h0 (hc ▸ List.mem_cons_self)
  have hroom : [c].length ≤ tail.length := h.length_le (Nat.add_lt_of_lt_sub hlen)
  have hfound := referenceEnd_eq h0 (List.cons_ne_nil c rest)
  rw [hclosing] at hfound
  have hfirst : CMem.rd (c :: rest ++ [0]) 0 = some c := rfl
  rw [interpolateLoop, hfirst]
  simp only [Option.bind_eq_bind, Option.bind_some]
  rw [if_pos ⟨hc, hlen⟩, hfound, Option.bind_some]
  dsimp only
  rw [store_append hroom, Option.bind_some, List.append_assoc, List.length_append,
    List.length_singleton]
  rfl

theorem loop_ref {text : List UInt8} (h : Room resultSize out tail) (h0 : 0 ∉ c :: rest)
    (hclosing : closing (c :: rest) = some n)
    (htext : (Piece.ref ((rest.drop 1).take n)).text getenv = text) (hname : n < maxVarNameLen)
    (hlen : out.length < resultSize - 1) :
    interpolateLoop getenv resultSize (fuel + 1) (c :: rest ++ [0]) (out ++ tail) out.length =
      if out.length + text.length < resultSize then
        interpolateLoop getenv resultSize fuel (rest.drop (n + 2) ++ [0])
          (out ++ text ++ tail.drop text.length) (out ++ text).length
      else some (false, out ++ tail) := by
  have hc : c ≠ 0 := fun hc => h0 (hc ▸ List.mem_cons_self)
  have hfound := referenceEnd_eq h0 (List.cons_ne_nil c rest)
  rw [hclosing] at hfound
  obtain ⟨-, hn, -⟩ := closing_some hclosing
  have hbehind : (c :: rest ++ [0]).drop (n + 3) = rest.drop (n + 2) ++ [0] := by
    rw [List.cons_append, List.drop_succ_cons, List.drop_append_of_le_length hn]
  have hfirst : CMem.rd (c :: rest ++ [0]) 0 = some c := rfl
  rw [interpolateLoop, hfirst]
  simp only [Option.bind_eq_bind, Option.bind_some]
  rw [if_pos ⟨hc, hlen⟩, hfound, Option.bind_some]
  dsimp only
  rw [substitute_eq h hclosing htext hname, hbehind, Option.bind_some]
  by_cases htake : out.length + text.length < resultSize
  · rw [if_pos htake, if_pos htake]
  · rw [if_neg htake, if_neg htake]

/-- A full buffer with something left of the string. -/
theorem finishes_full (h : Room resultSize out tail) (h0 : 0 ∉ c :: rest)
    (hfull : ¬ out.length < resultSize - 1) :
    Finishes getenv resultSize out (p :: ps) (interpolateLoop getenv resultSize (fuel + 1)
      (c :: rest ++ [0]) (out ++ tail) out.length) := by
  have hc : c ≠ 0 := fun hc => h0 (hc ▸ List.mem_cons_self)
  have hlast : out.length = resultSize - 1 := by
    have hlen := h.len_lt
    omega
  rw [loop_full hc hfull]
  exact .failed (hlast ▸ not_accepted_full)

/-- A piece that leaves no room for the terminator is not taken. -/
theorem not_accepted_long {len : Nat} (h : len < resultSize - 1)
    (hlong : ¬ len + (p.text getenv).length < resultSize) :
    ¬ Accepted getenv resultSize len (p :: ps) := by
  intro haccepted
  have hlater := (accepted_cons h).mp haccepted
  exact hlong (Nat.lt_of_le_of_lt (Nat.le_add_right _ _) hlater.1)

/-- The loop on the pieces that are left, with `out` in the buffer. -/
theorem interpolateLoop_eq (h : Room resultSize out tail) (h0 : 0 ∉ l)
    (hnames : ∀ name, Piece.ref name ∈ pieces l → name.length < maxVarNameLen)
    (hfuel : l.length < fuel) :
    Finishes getenv resultSize out (pieces l)
      (interpolateLoop getenv resultSize fuel (l ++ [0]) (out ++ tail) out.length) := by
  induction l using pieces.induct generalizing out tail fuel with
  | case1 =>
    obtain ⟨fuel, rfl⟩ := Nat.exists_eq_add_one_of_ne_zero (Nat.ne_zero_of_lt hfuel)
    have hempty : Accepted getenv resultSize out.length [] := by
      refine ⟨h.len_lt, ?_⟩
      rintro ⟨-, q, hq, -⟩
      cases hq
    rw [List.nil_append, loop_nil h, pieces]
    exact ⟨true, _, rfl, iff_of_true rfl hempty, fun _ => ⟨tail.drop 1, by simp [expansion]⟩⟩
  | case2 c rest hclosing ih =>
    have hpieces : pieces (c :: rest) = .char c :: pieces rest := by rw [pieces, hclosing]
    rw [hpieces] at hnames ⊢
    obtain ⟨fuel, rfl⟩ := Nat.exists_eq_add_one_of_ne_zero (Nat.ne_zero_of_lt hfuel)
    -- the condition of the loop
    by_cases hroom : out.length < resultSize - 1
    · have hrest : 0 ∉ rest := fun hmem => h0 (List.mem_cons_of_mem c hmem)
      have hone : out.length + [c].length < resultSize := Nat.add_lt_of_lt_sub hroom
      have hafter : Room resultSize (out ++ [c]) (tail.drop 1) := h.append hone
      rw [loop_char h h0 hclosing hroom]
      exact .cons hroom (ih hafter hrest
        (fun name hmem => hnames name (List.mem_cons_of_mem _ hmem))
        (Nat.lt_of_succ_lt_succ hfuel))
    · exact finishes_full h h0 hroom
  | case3 c rest n hclosing ih =>
    have hpieces : pieces (c :: rest) =
        .ref ((rest.drop 1).take n) :: pieces (rest.drop (n + 2)) := by
      rw [pieces, hclosing]
    rw [hpieces] at hnames ⊢
    obtain ⟨fuel, rfl⟩ := Nat.exists_eq_add_one_of_ne_zero (Nat.ne_zero_of_lt hfuel)
    by_cases hroom : out.length < resultSize - 1
    · obtain ⟨-, hn, -⟩ := closing_some hclosing
      have hname : n < maxVarNameLen := by
        have hshort := hnames _ List.mem_cons_self
        rw [List.length_take, List.length_drop] at hshort
        omega
      have hrest : 0 ∉ rest.drop (n + 2) :=
        fun hmem => h0 (List.mem_cons_of_mem c (List.mem_of_mem_drop hmem))
      have hshorter : (rest.drop (n + 2)).length < fuel := by
        rw [List.length_cons] at hfuel
        rw [List.length_drop]
        omega
      rw [loop_ref h h0 hclosing rfl hname hroom]
      -- the value is copied as a whole or not at all
      split
      case isTrue htake =>
        exact .cons hroom (ih (h.append htake) hrest
          (fun name hmem => hnames name (List.mem_cons_of_mem _ hmem)) hshorter)
      case isFalse hlong => exact .failed (not_accepted_long hroom hlong)
    · exact finishes_full h h0 hroom

end loop

/-! ## The function -/

/-- The result buffer and its size; no object is larger than `PTRDIFF_MAX`. -/
structure ResultBuffer where
  bytes : List UInt8
  size : Nat
  size_pos : 0 < size
  size_le : size ≤ bytes.length
  fits : bytes.length < 2 ^ 63

/-- `interpolate` returns, says that the expansion fits exactly when it does, with its terminator,
and then leaves it in the buffer. -/
def Interpolates (getenv : Environment) (value : CString) (buf : ResultBuffer) : Prop :=
  ∃ ok mem, interpolate getenv (some value.mem) (some buf.bytes) buf.size = some (ok, some mem) ∧
    (ok = true ↔ (expansion getenv (pieces value.bytes)).length < buf.size) ∧
    (ok = true → cstrOf mem = expansion getenv (pieces value.bytes))

/-- The expansion is a string. -/
theorem expansion_nulFree (h0 : 0 ∉ l) : 0 ∉ expansion getenv (pieces l) := by
  intro hmem
  obtain ⟨p, hp, hzero⟩ := List.mem_flatMap.mp hmem
  cases p with
  | char c =>
    have hc : 0 = c := List.mem_singleton.mp hzero
    have hwritten : c ∈ (pieces l).flatMap Piece.written :=
      List.mem_flatMap.mpr ⟨.char c, hp, List.mem_singleton_self c⟩
    rw [written_pieces, ← hc] at hwritten
    exact h0 hwritten
  | ref name =>
    rw [Piece.text] at hzero
    split at hzero
    · cases hzero
    · cases hvalue : getenv name with
      | none =>
        rw [hvalue] at hzero
        cases hzero
      | some value =>
        rw [hvalue] at hzero
        exact value.nulFree hzero

theorem interpolate_finishes (getenv : Environment) (value : CString) (buf : ResultBuffer)
    (hnames : ∀ name, Piece.ref name ∈ pieces value.bytes → name.length < maxVarNameLen) :
    ∃ ok mem, interpolate getenv (some value.mem) (some buf.bytes) buf.size = some (ok, some mem) ∧
      (ok = true ↔ Accepted getenv buf.size 0 (pieces value.bytes)) ∧
      (ok = true → cstrOf mem = expansion getenv (pieces value.bytes)) := by
  obtain ⟨zeros, hzeros⟩ : ∃ zeros : List UInt8, zeros = List.replicate buf.size 0 ++
    buf.bytes.drop (List.replicate buf.size (0 : UInt8)).length := ⟨_, rfl⟩
  have hlength : zeros.length = buf.bytes.length := by
    have hle := buf.size_le
    rw [hzeros, List.length_append, List.length_drop, List.length_replicate]
    omega
  have hmemset : store buf.bytes 0 (List.replicate buf.size 0) = some zeros := by
    have hroom : (List.replicate buf.size (0 : UInt8)).length ≤ buf.bytes.length := by
      rw [List.length_replicate]
      exact buf.size_le
    have hstore := store_append (l := []) hroom
    rw [hzeros]
    exact hstore
  have hroom : Room buf.size [] zeros :=
    ⟨buf.size_pos, hlength ▸ buf.size_le, hlength ▸ buf.fits⟩
  have hfuel : value.bytes.length < value.mem.length := by simp [CString.mem]
  have hloop : Finishes getenv buf.size [] (pieces value.bytes)
      (interpolateLoop getenv buf.size value.mem.length value.mem zeros 0) :=
    interpolateLoop_eq hroom value.nulFree hnames hfuel
  obtain ⟨ok, mem, hrun, hok, hmem⟩ := hloop
  refine ⟨ok, mem, ?_, hok, ?_⟩
  · have hpos : ¬ buf.size = 0 := Nat.ne_of_gt buf.size_pos
    rw [interpolate]
    dsimp only
    rw [if_neg hpos, hmemset]
    simp only [Option.bind_eq_bind, Option.bind_some, hrun]
  · intro htrue
    obtain ⟨tail, htail⟩ := hmem htrue
    rw [htail, List.nil_append, cstrOf_append (expansion_nulFree value.nulFree)]

/-- The expansion is accepted when it fits, unless it fills the buffer and the string ends in a
reference that expands to nothing. -/
theorem interpolate_exact_iff (getenv : Environment) (value : CString) (buf : ResultBuffer)
    (hnames : ∀ name, Piece.ref name ∈ pieces value.bytes → name.length < maxVarNameLen) :
    Interpolates getenv value buf ↔
      ¬ ((expansion getenv (pieces value.bytes)).length = buf.size - 1 ∧
        EndsInNothing getenv (pieces value.bytes)) := by
  obtain ⟨ok, mem, hrun, hok, hmem⟩ := interpolate_finishes getenv value buf hnames
  have hpos := buf.size_pos
  rw [Accepted, Nat.zero_add] at hok
  unfold Interpolates
  rw [hrun]
  constructor
  · rintro ⟨ok', mem', hreturns, hfits, -⟩ hwrong
    cases hreturns
    exact (hok.mp (hfits.mpr (by omega))).2 hwrong
  · intro h
    refine ⟨ok, mem, rfl, hok.trans ?_, hmem⟩
    exact ⟨fun haccepted => haccepted.1, fun hfits => ⟨hfits, h⟩⟩

/-- One variable, `A`, with the value `xy`. -/
def sampleEnv : Environment := fun name =>
  if name = [0x41] then some ⟨⟨[0x78, 0x79], by decide⟩, by decide⟩ else none

/-- `${A}` -/
def sampleValue : CString := ⟨[0x24, 0x7B, 0x41, 0x7D], by decide⟩

/-- `ab${B}` -/
def trailingValue : CString := ⟨[0x61, 0x62, 0x24, 0x7B, 0x42, 0x7D], by decide⟩

/-- Room for two bytes and the terminator. -/
def sampleBuffer : ResultBuffer where
  bytes := [1, 2, 3]
  size := 3
  size_pos := by decide
  size_le := by decide
  fits := by decide

/-- The last reference may fill the buffer, when something comes of it. -/
theorem interpolate_exact_sample :
    (∀ name, Piece.ref name ∈ pieces sampleValue.bytes → name.length < maxVarNameLen) ∧
      Interpolates sampleEnv sampleValue sampleBuffer := by
  have hpieces : pieces sampleValue.bytes = [.ref [0x41]] := by
    simp [pieces, sampleValue, closing, List.idxOf?_cons]
  have hnames : ∀ name, Piece.ref name ∈ pieces sampleValue.bytes →
      name.length < maxVarNameLen := by
    intro name hname
    rw [hpieces] at hname
    cases List.mem_singleton.mp hname
    decide
  refine ⟨hnames, (interpolate_exact_iff sampleEnv sampleValue sampleBuffer hnames).mpr ?_⟩
  rintro ⟨-, p, hp, hnothing⟩
  rw [hpieces] at hp
  cases hp
  exact absurd hnothing (by decide)

theorem pieces_trailing : pieces trailingValue.bytes = [.char 0x61, .char 0x62, .ref [0x42]] := by
  simp [pieces, trailingValue, closing, List.idxOf?_cons]

/-- The expansion is `ab`, for which there is room. -/
theorem interpolate_refuses_trailing :
    (∀ name, Piece.ref name ∈ pieces trailingValue.bytes → name.length < maxVarNameLen) ∧
    interpolate sampleEnv (some trailingValue.mem) (some sampleBuffer.bytes) sampleBuffer.size =
      some (false, some [0x61, 0x62, 0]) ∧
    expansion sampleEnv (pieces trailingValue.bytes) = [0x61, 0x62] ∧
    ¬ Interpolates sampleEnv trailingValue sampleBuffer := by
  have hnames : ∀ name, Piece.ref name ∈ pieces trailingValue.bytes →
      name.length < maxVarNameLen := by
    intro name hname
    rw [pieces_trailing] at hname
    have hshort : Piece.ref name = .ref [0x42] := by simpa using hname
    cases hshort
    decide
  have hrefused : interpolate sampleEnv (some trailingValue.mem) (some sampleBuffer.bytes)
      sampleBuffer.size = some (false, some [0x61, 0x62, 0]) := by
    decide
  have hexpansion : expansion sampleEnv (pieces trailingValue.bytes) = [0x61, 0x62] := by
    rw [pieces_trailing]
    rfl
  refine ⟨hnames, hrefused, hexpansion, ?_⟩
  rintro ⟨ok, mem, hrun, hok, -⟩
  rw [hrefused] at hrun
  cases hrun
  rw [hexpansion] at hok
  exact absurd (hok.mpr (by decide)) Bool.false_ne_true

end Solidc.Dotenv
