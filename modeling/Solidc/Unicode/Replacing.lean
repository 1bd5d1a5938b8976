import Solidc.Lib.Splitting
import Solidc.Unicode.Scalars
import Mathlib.Data.List.TakeDrop

/-! # Replacing every occurrence

`utf8_replace_all` edits a string object while it scans it. `CLib.pieces` is what stands between
the leftmost occurrences that do not overlap; the result is these pieces with the new string
between them. The invariant of the loop: what stands in front of the cursor is final, what stands
behind it is a rest of the original string. Offsets stand for pointers, since the source derives
them anew when the block has moved.
-/

namespace Solidc.Unicode

open CLib

/-- The first `n` occurrences are replaced. -/
def replaceLeftmost (old new : List Nat) (n : Nat) (cps : List Nat) : List Nat :=
  new.intercalate ((CLib.pieces old cps).take n ++ [old.intercalate ((CLib.pieces old cps).drop n)])

/-- The leftmost occurrences that do not overlap. -/
def occurrences (old cps : List Nat) : Nat := (CLib.pieces old cps).length - 1

/-- All of them are replaced. -/
def replaceEach (old new cps : List Nat) : List Nat := new.intercalate (CLib.pieces old cps)

variable {old new cps rest : List Nat} {n i : Nat}

/-! ## On lists -/

theorem replaceLeftmost_zero (hne : old ≠ []) (new cps : List Nat) :
    replaceLeftmost old new 0 cps = cps := by
  rw [replaceLeftmost, List.take_zero, List.nil_append, List.intercalate_singleton, List.drop_zero,
    intercalate_pieces hne]

/-- One more occurrence, replaced in front of the others. -/
theorem replaceLeftmost_succ (hne : old ≠ []) (h : findSub old cps = some i) (new : List Nat)
    (n : Nat) : replaceLeftmost old new (n + 1) cps =
      cps.take i ++ new ++ replaceLeftmost old new n (cps.drop (i + old.length)) := by
  rw [replaceLeftmost, pieces_of_some hne h, List.take_succ_cons, List.drop_succ_cons,
    List.cons_append, intercalate_cons (by simp), List.append_assoc]
  rfl

theorem occurrences_of_none (h : findSub old cps = none) : occurrences old cps = 0 := by
  rw [occurrences, pieces_of_none h]
  rfl

theorem occurrences_of_some (hne : old ≠ []) (h : findSub old cps = some i) :
    occurrences old cps = occurrences old (cps.drop (i + old.length)) + 1 := by
  have hpos := List.length_pos_iff.mpr (pieces_ne_nil hne (cps.drop (i + old.length)))
  rw [occurrences, occurrences, pieces_of_some hne h, List.length_cons]
  omega

theorem replaceLeftmost_occurrences (hne : old ≠ []) (new cps : List Nat) :
    replaceLeftmost old new (occurrences old cps) cps = replaceEach old new cps := by
  have hps := pieces_ne_nil hne cps
  -- only the last piece is left behind the occurrences
  have hlast : (CLib.pieces old cps).drop (occurrences old cps) =
      [(CLib.pieces old cps).getLast hps] := List.drop_length_sub_one hps
  rw [replaceLeftmost, hlast, List.intercalate_singleton, ← hlast, List.take_append_drop]
  rfl

/-! ## The loop -/

/-- What the loop leaves behind the characters `pre`: some leftmost occurrences are replaced, all
of them unless the buffer could not grow. -/
structure Replaced (oldStr newStr : CString) (old new pre rest : List Nat) (s' : Utf8String)
    (n : Nat) : Prop where
  represents : Represents s' (pre ++ replaceLeftmost old new n rest)
  le : n ≤ occurrences old rest
  stopped : n < occurrences old rest →
    utf8StringGrow s' (s'.length - oldStr.len + newStr.len) = none

variable {s : Utf8String} {oldStr newStr : CString}

/-- From a cursor behind `pre`, which is final, the loop replaces the occurrences in the rest. -/
theorem replaceAllLoop_replaces (hold : Encodes oldStr old) (hnew : Encodes newStr new)
    (hne : old ≠ []) {fuel : Nat} {pre : List Nat} (h : Represents s (pre ++ rest))
    (hfuel : rest.length < fuel) (done : Nat) :
    ∃ s' n, replaceAllLoop
        ⟨validLen oldStr, validLen newStr, leads oldStr.bytes, leads newStr.bytes⟩
        oldStr.mem newStr.mem fuel s (encodeAll pre).length done = some (s', done + n) ∧
      Replaced oldStr newStr old new pre rest s' n := by
  induction fuel generalizing s pre rest done with
  | zero => omega
  | succ fuel ih =>
    have hrest : Scalars rest := fun c hc => h.scalars c (List.mem_append_right pre hc)
    have hcursor : (encodeAll pre).length ≤ (encodeAll (pre ++ rest)).length := by
      rw [encodeAll_append, List.length_append]
      exact Nat.le_add_right _ _
    have hfind : strstr (s.data.drop (encodeAll pre).length) oldStr.mem =
        some ((findSub old rest).map (boundary rest)) := by
      rw [strstr_eq h.toHolds oldStr hcursor, encodeAll_append, List.drop_left, ← hold.bytes,
        findSub_encodeAll hold.scalars hne hrest]
    rw [replaceAllLoop, hfind, Option.bind_some]
    cases hf : findSub old rest with
    | none =>
      refine ⟨s, 0, rfl, ?_, Nat.zero_le _, ?_⟩
      · rwa [replaceLeftmost_zero hne]
      · rw [occurrences_of_none hf]
        exact fun hpos => absurd hpos (Nat.lt_irrefl 0)
    | some i =>
      obtain ⟨hi, hocc, -⟩ := findSub_eq_some_iff.mp hf
      have hfits := findSub_fits hf
      have hpos : 0 < old.length := List.length_pos_iff.mpr hne
      -- the occurrence, as one of the whole string
      have hplace : boundary (pre ++ rest) (pre.length + i) =
          (encodeAll pre).length + boundary rest i := by
        rw [boundary, boundary, List.take_length_add_append, encodeAll_append, List.length_append]
      have hwhole : old <+: (pre ++ rest).drop (pre.length + i) := by
        rwa [List.drop_length_add_append]
      simp only [Option.map_some, ← hplace]
      rcases replaceAt_represents h hold hnew (by rw [List.length_append]; omega) hwhole with
        ⟨hgrow, heq⟩ | ⟨s₁, heq, hs₁⟩
      · -- the buffer does not grow: the loop stops with the string as it is
        rw [heq]
        refine ⟨s, 0, rfl, ?_, Nat.zero_le _, fun _ => hgrow⟩
        rwa [replaceLeftmost_zero hne]
      · rw [heq]
        rw [List.take_length_add_append, Nat.add_assoc, List.drop_length_add_append] at hs₁
        have hcur : boundary (pre ++ rest) (pre.length + i) + validLen newStr =
            (encodeAll (pre ++ rest.take i ++ new)).length := by
          rw [hplace, hnew.validLen_eq, ← hnew.bytes, boundary]
          simp only [encodeAll_append, List.length_append]
        obtain ⟨s', n, hrun, hdone⟩ := ih hs₁ (by rw [List.length_drop]; omega) (done + 1)
        refine ⟨s', n + 1, ?_, ?_, ?_, ?_⟩
        · show replaceAllLoop _ _ _ fuel s₁ (boundary _ _ + validLen newStr) (done + 1) = _
          rw [hcur, hrun, Nat.add_assoc, Nat.add_comm 1 n]
        · have hlist : pre ++ replaceLeftmost old new (n + 1) rest = pre ++ rest.take i ++ new ++
              replaceLeftmost old new n (rest.drop (i + old.length)) := by
            rw [replaceLeftmost_succ hne hf]
            simp only [List.append_assoc]
          rw [hlist]
          exact hdone.represents
        · rw [occurrences_of_some hne hf]
          exact Nat.succ_le_succ hdone.le
        · rw [occurrences_of_some hne hf]
          exact fun hlt => hdone.stopped (Nat.lt_of_succ_lt_succ hlt)

/-! ## The call -/

/-- `utf8_replace_all` returns. It replaces every leftmost occurrence and returns their number;
or it stops because the buffer cannot grow, with the number of those it has replaced. -/
theorem utf8ReplaceAll_replaces (h : Represents s cps) (hold : Encodes oldStr old)
    (hnew : Encodes newStr new) (hne : old ≠ []) :
    ∃ s' n, utf8ReplaceAll s oldStr.mem newStr.mem = some (s', n) ∧
      (n = occurrences old cps ∧ Represents s' (replaceEach old new cps) ∨
        n < occurrences old cps ∧ Represents s' (replaceLeftmost old new n cps) ∧
          utf8StringGrow s' (s'.length - oldStr.len + newStr.len) = none) := by
  have hlen : oldStr.bytes.length ≠ 0 := by
    have hle := length_le_encodeAll hold.scalars
    have hpos := List.length_pos_iff.mpr hne
    rw [hold.bytes] at hle
    omega
  have hfuel : cps.length < s.length + 1 := by
    have hle := length_le_encodeAll h.scalars
    rw [h.length]
    omega
  have hstart : Represents s ([] ++ cps) := h
  obtain ⟨s', n, hrun, hdone⟩ := replaceAllLoop_replaces hold hnew hne hstart hfuel 0
  rw [encodeAll_nil, List.length_nil, Nat.zero_add] at hrun
  have hrep := hdone.represents
  rw [List.nil_append] at hrep
  refine ⟨s', n, ?_, ?_⟩
  · rw [utf8ReplaceAll, measure_eq, Option.bind_some]
    simp only
    rw [hold.validLen_eq, if_neg hlen, ← hold.validLen_eq, hrun]
  · rcases Nat.lt_or_eq_of_le hdone.le with hlt | heq
    · exact .inr ⟨hlt, hrep, hdone.stopped hlt⟩
    · rw [heq, replaceLeftmost_occurrences hne] at hrep
      exact .inl ⟨heq, hrep⟩

/-- Both letters are replaced, and the buffer has grown for it. -/
theorem utf8ReplaceAll_replaces_accent : ∃ s' n,
    utf8ReplaceAll ⟨[0x61, 0x61, 0], 2, 2, 2⟩ [0x61, 0] [0xC3, 0xA9, 0] = some (s', n) ∧
      n = occurrences [0x61] [0x61, 0x61] ∧
      Represents s' (replaceEach [0x61] [0xE9] [0x61, 0x61]) := by
  have hs : Represents ⟨[0x61, 0x61, 0], 2, 2, 2⟩ [0x61, 0x61] := by
    refine ⟨⟨⟨[], by decide⟩, by decide, by decide, by decide, by decide⟩, ?_, rfl⟩
    simp [Scalars, NonzeroScalar, unicodeMaxCodepoint]
  have hletter : Encodes ⟨[0x61], by decide⟩ [0x61] := by
    refine ⟨?_, by decide⟩
    simp [Scalars, NonzeroScalar, unicodeMaxCodepoint]
  have haccent : Encodes accentText [0xE9] := by
    refine ⟨?_, by decide⟩
    simp [Scalars, NonzeroScalar, unicodeMaxCodepoint]
  have hresult : utf8ReplaceAll ⟨[0x61, 0x61, 0], 2, 2, 2⟩ [0x61, 0] [0xC3, 0xA9, 0] =
      some (⟨[0xC3, 0xA9, 0xC3, 0xA9, 0], 4, 2, 4⟩, 2) := rfl
  obtain ⟨s', n, hrun, hall | ⟨-, -, hgrow⟩⟩ :=
    utf8ReplaceAll_replaces hs hletter haccent (by decide)
  · exact ⟨s', n, hrun, hall⟩
  · -- the buffer could have grown
    have hsame := hresult.symm.trans hrun
    cases hsame
    exact absurd hgrow (by decide)

end Solidc.Unicode
