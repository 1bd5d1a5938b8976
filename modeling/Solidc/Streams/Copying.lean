import Solidc.Streams.Cursor

/-! # Copying through a buffer

`io_copy` takes a short cut between two string streams: `string_stream_copy_fast` copies all that is
left in one go. The loop that it has for other streams, and the one of `io_copy_n`, read and write
16384 bytes a round.

* `Cursor.overwrite_overwrite` — writing in parts is writing at once;
* `copyLoop_copies` — what the loop leaves behind, whatever the rounds are;
* `copy_paths_agree` — which is what the short cut does.
-/

namespace Solidc.Streams

open CLib

/-! ## The code -/

/-- `sizeof(buf)`. -/
def copyBufSize : Nat := 16384

/-- How much a round asks for; `left` is the number of bytes that `io_copy_n` has still to copy,
and `io_copy` has none. -/
def wanted (left : Option Nat) : Nat :=
  match left with
  | none => copyBufSize
  | some n => if n < copyBufSize then n else copyBufSize

/-- The loop of `io_copy` and of `io_copy_n` on string streams, with what it returns. The first
number bounds the rounds, and `mem i` is what the allocation of round `i` returns. Flushing a string
stream does nothing. -/
def copyLoop (writer reader : Nat) (mem : Nat → Alloc) :
    Nat → Nat → Option Nat → List StringStream → Nat → Option (List StringStream × Int)
  | 0, _, _, _, _ => none
  | fuel + 1, round, left, streams, total =>
    if left = some 0 then some (streams, total)
    else do
      let s ← streams[reader]?
      let (s, buf) ← stringReadImpl s (wanted left)
      let streams := streams.set reader s
      -- a read from a string stream does not fail
      if buf.length = 0 then some (streams, total)
      else
        let d ← streams[writer]?
        let (d, w) ← stringWriteImpl d buf (mem round)
        let streams := streams.set writer d
        if w < 0 then some (streams, 2 ^ 64 - 1)
        else
          copyLoop writer reader mem fuel (round + 1) (left.map (· - buf.length)) streams
            (toSize (total + w.toNat))

/-- `io_copy` of one string stream to another. -/
def ioCopy (streams : List StringStream) (writer reader : Nat) (mem : Alloc) :
    Option (List StringStream × Int) :=
  stringStreamCopyFast streams writer reader mem

/-- What `io_copy` does to streams that are not both string streams. -/
def ioCopyGeneric (fuel : Nat) (streams : List StringStream) (writer reader : Nat)
    (mem : Nat → Alloc) : Option (List StringStream × Int) :=
  copyLoop writer reader mem fuel 0 none streams 0

def ioCopyN (fuel : Nat) (streams : List StringStream) (writer reader n : Nat)
    (mem : Nat → Alloc) : Option (List StringStream × Int) :=
  copyLoop writer reader mem fuel 0 (some n) streams 0

/-! ## Writing in parts -/

theorem Cursor.overwrite_overwrite (c : Cursor) (h : c.pos ≤ c.text.length) (a b : List UInt8) :
    (c.overwrite a).overwrite b = c.overwrite (a ++ b) := by
  have htake : (c.text.take c.pos).length = c.pos := by
    rw [List.length_take, Nat.min_eq_left h]
  have hsplit : c.text.take c.pos ++ (a ++ c.text.drop (c.pos + a.length)) =
      (c.text.take c.pos ++ a) ++ c.text.drop (c.pos + a.length) := by
    rw [List.append_assoc]
  have hlen : (c.text.take c.pos ++ a).length = c.pos + a.length := by
    rw [List.length_append, htake]
  simp only [Cursor.overwrite, hsplit, List.length_append]
  rw [List.take_left' hlen, ← List.drop_drop, List.drop_left' hlen, List.drop_drop]
  simp only [List.append_assoc, Nat.add_assoc]

/-- What is left in a text is what a read gives, and then the rest. -/
theorem Cursor.left_eq (c : Cursor) (n : Nat) :
    c.text.drop c.pos = c.ahead n ++ c.text.drop (c.pos + (c.ahead n).length) := by
  rw [Cursor.ahead, ← List.drop_drop, List.length_take]
  rcases Nat.le_total n (c.text.drop c.pos).length with hle | hle
  · rw [Nat.min_eq_left hle, List.take_append_drop]
  · rw [Nat.min_eq_right hle, List.drop_length, List.take_of_length_le hle, List.append_nil]

theorem Cursor.ahead_eq_nil {c : Cursor} {n : Nat} (hn : 0 < n) (h : (c.ahead n).length = 0) :
    c.text.drop c.pos = [] := by
  rw [Cursor.ahead, List.length_take] at h
  exact List.length_eq_zero_iff.mp (by omega)

theorem wanted_pos {left : Option Nat} (h : left ≠ some 0) : 0 < wanted left := by
  unfold wanted copyBufSize
  cases left with
  | none => decide
  | some n =>
    have hn : n ≠ 0 := fun hzero => h (by rw [hzero])
    dsimp only
    split <;> omega

/-! ## The loop -/

section Loop

variable {streams : List StringStream} {writer reader : Nat} {d s : StringStream} {cd cs : Cursor}

/-- The writer has the text and the cursor of `c`, the reader is at `pos`, no other stream has
changed, and the number of bytes is returned. -/
def Copied (streams : List StringStream) (writer reader : Nat) (c : Cursor) (s : StringStream)
    (pos n : Nat) (r : Option (List StringStream × Int)) : Prop :=
  ∃ d', r = some ((streams.set writer d').set reader { s with pos }, (n : Int)) ∧ Carries d' c

/-- Nothing was left. -/
theorem Copied.nothing (hd : streams[writer]? = some d) (hs : streams[reader]? = some s)
    (hD : Carries d cd) (hpos : s.pos = cs.pos) (n : Nat) :
    Copied streams writer reader (cd.overwrite []) s (cs.pos + ([] : List UInt8).length) n
      (some (streams, (n : Int))) := by
  refine ⟨d, ?_, by rw [Cursor.overwrite_nil]; exact hD⟩
  rw [List.length_nil, Nat.add_zero, ← hpos, set_self hd, set_self hs]

/-- The loop copies all that is left, when it may. -/
theorem copyLoop_copies (hne : writer ≠ reader) (junk : Nat → Nat → UInt8) {fuel : Nat}
    (round total : Nat) (left : Option Nat) (hd : streams[writer]? = some d)
    (hs : streams[reader]? = some s) (hD : Carries d cd) (hS : Carries s cs)
    (hleft : ∀ n ∈ left, (cs.text.drop cs.pos).length ≤ n)
    (hfits : cd.pos + (cs.text.drop cs.pos).length < 2 ^ 63)
    (htotal : total + (cs.text.drop cs.pos).length < 2 ^ 64)
    (hfuel : (cs.text.drop cs.pos).length < fuel) :
    Copied streams writer reader (cd.overwrite (cs.text.drop cs.pos)) s
      (cs.pos + (cs.text.drop cs.pos).length) (total + (cs.text.drop cs.pos).length)
      (copyLoop writer reader (fun i => some (junk i)) fuel round left streams total) := by
  induction fuel generalizing streams d s cd cs round total left with
  | zero => exact absurd hfuel (Nat.not_lt_zero _)
  | succ fuel ih =>
    obtain ⟨hread, hS'⟩ := hS.read (wanted left)
    rw [copyLoop]
    by_cases hzero : left = some 0
    · -- as many bytes as were asked for have been copied
      have hnil : cs.text.drop cs.pos = [] :=
        List.length_eq_zero_iff.mp (Nat.le_zero.mp (hleft 0 (hzero ▸ rfl)))
      rw [if_pos hzero, hnil]
      exact Copied.nothing hd hs hD hS.pos total
    obtain ⟨chunk, hchunk⟩ : ∃ l, l = cs.ahead (wanted left) := ⟨_, rfl⟩
    have hsplit := cs.left_eq (wanted left)
    rw [← hchunk] at hsplit
    rw [← hchunk] at hread hS'
    rw [if_neg hzero, hs]
    simp only [Option.bind_eq_bind, Option.bind_some, hread]
    by_cases hend : chunk.length = 0
    · -- the reader is at its end
      have hnil := Cursor.ahead_eq_nil (wanted_pos hzero) (hchunk ▸ hend)
      have hsame : ({ s with pos := cs.pos + chunk.length } : StringStream) = s := by
        rw [hend, Nat.add_zero, ← hS.pos]
      rw [if_pos hend, hsame, set_self hs, hnil]
      exact Copied.nothing hd hs hD hS.pos total
    · rw [if_neg hend, List.getElem?_set_ne hne.symm, hd]
      have hlen := congrArg List.length hsplit
      rw [List.length_append] at hlen
      have hposD := hD.pos
      rcases hD.write (by omega : d.pos + chunk.length < 2 ^ 63) (some (junk round)) with
        ⟨d', hwrite, hD'⟩ | ⟨hnone, -⟩
      · have hcount : toSize (total + (chunk.length : Int).toNat) = total + chunk.length := by
          rw [Int.toNat_natCast, toSize_eq (by omega)]
        have hok : ¬ (chunk.length : Int) < 0 := by omega
        have hw : writer < streams.length := (List.getElem?_eq_some_iff.mp hd).1
        have hr : reader < streams.length := (List.getElem?_eq_some_iff.mp hs).1
        have hd' : ((streams.set reader { s with pos := cs.pos + chunk.length }).set writer
            d')[writer]? = some d' :=
          List.getElem?_set_self (by rw [List.length_set]; exact hw)
        have hs' : ((streams.set reader { s with pos := cs.pos + chunk.length }).set writer
            d')[reader]? = some { s with pos := cs.pos + chunk.length } := by
          rw [List.getElem?_set_ne hne, List.getElem?_set_self hr]
        have hleft' : ∀ n ∈ left.map (· - chunk.length),
            (cs.text.drop (cs.pos + chunk.length)).length ≤ n := by
          intro n hn
          obtain ⟨m, hm, rfl⟩ := Option.map_eq_some_iff.mp hn
          have := hleft m hm
          omega
        have hfits' : cd.pos + chunk.length + (cs.text.drop (cs.pos + chunk.length)).length <
            2 ^ 63 := by omega
        have htotal' : total + chunk.length + (cs.text.drop (cs.pos + chunk.length)).length <
            2 ^ 64 := by omega
        have hfuel' : (cs.text.drop (cs.pos + chunk.length)).length < fuel := by omega
        simp only [Option.bind_some, hwrite, hcount, if_neg hok]
        -- the rest is copied by the next rounds
        obtain ⟨d'', hrun, hD''⟩ := ih (round + 1) (total + chunk.length)
          (left.map (· - chunk.length)) hd' hs' hD' hS' hleft' hfits' htotal' hfuel'
        refine ⟨d'', ?_, ?_⟩
        · rw [hrun, List.set_set, List.set_comm _ _ hne.symm, List.set_set, hlen]
          simp only [Cursor.advance, Nat.add_assoc]
        · rw [hsplit, ← Cursor.overwrite_overwrite cd hD.pos_le]
          exact hD''
      · cases hnone

end Loop

/-! ## The short cut -/

variable {streams : List StringStream} {writer reader : Nat} {d s : StringStream} {cd cs : Cursor}

/-- All ways of copying one string stream to another leave the same texts, sizes and cursors and
return the same number, when there is memory: the short cut, the loop through the buffer, and the
loop of `io_copy_n` for as many bytes as are left or more. -/
theorem copy_paths_agree (hne : writer ≠ reader) (hd : streams[writer]? = some d)
    (hs : streams[reader]? = some s) (hD : Carries d cd) (hS : Carries s cs)
    (hfits : cd.pos + (cs.text.drop cs.pos).length < 2 ^ 63) (junk : Nat → Nat → UInt8) :
    Copied streams writer reader (cd.overwrite (cs.text.drop cs.pos)) s
      (cs.pos + (cs.text.drop cs.pos).length) (cs.text.drop cs.pos).length
      (ioCopy streams writer reader (some (junk 0))) ∧
    ∀ fuel > (cs.text.drop cs.pos).length,
      Copied streams writer reader (cd.overwrite (cs.text.drop cs.pos)) s
        (cs.pos + (cs.text.drop cs.pos).length) (cs.text.drop cs.pos).length
        (ioCopyGeneric fuel streams writer reader fun i => some (junk i)) ∧
      ∀ n ≥ (cs.text.drop cs.pos).length,
        Copied streams writer reader (cd.overwrite (cs.text.drop cs.pos)) s
          (cs.pos + (cs.text.drop cs.pos).length) (cs.text.drop cs.pos).length
          (ioCopyN fuel streams writer reader n fun i => some (junk i)) := by
  constructor
  · rcases Carries.copyFast hd hs hD hS hne hfits (some (junk 0)) with
      ⟨d', hcopy, hD'⟩ | ⟨hnone, -⟩
    · exact ⟨d', hcopy, hD'⟩
    · cases hnone
  · intro fuel hfuel
    have hloop := fun left hleft => copyLoop_copies hne junk 0 0 left hd hs hD hS hleft hfits
      (by omega) hfuel
    rw [Nat.zero_add] at hloop
    exact ⟨hloop none nofun, fun n hn => hloop (some n) fun k hk => Option.some.inj hk ▸ hn⟩

/-- `ab` copied over `xyz` from the second byte on. -/
def copyExample : List StringStream := [⟨[120, 121, 122, 0], 3, 4, 1⟩, ⟨[97, 98, 0], 2, 3, 0⟩]

theorem copy_paths_agree_overwriting :
    Copied copyExample 0 1 ⟨[120, 97, 98], 3⟩ ⟨[97, 98, 0], 2, 3, 0⟩ 2 2
      (ioCopy copyExample 0 1 (some fun _ => 7)) ∧
    Copied copyExample 0 1 ⟨[120, 97, 98], 3⟩ ⟨[97, 98, 0], 2, 3, 0⟩ 2 2
      (ioCopyGeneric 3 copyExample 0 1 fun _ => some fun _ => 7) := by
  have hD : Carries ⟨[120, 121, 122, 0], 3, 4, 1⟩ ⟨[120, 121, 122], 1⟩ :=
    ⟨rfl, rfl, by decide, ⟨[], rfl⟩, rfl, by decide⟩
  have hS : Carries ⟨[97, 98, 0], 2, 3, 0⟩ ⟨[97, 98], 0⟩ :=
    ⟨rfl, rfl, by decide, ⟨[], rfl⟩, rfl, by decide⟩
  have hagree := copy_paths_agree (by decide : 0 ≠ 1)
    (rfl : copyExample[0]? = some ⟨[120, 121, 122, 0], 3, 4, 1⟩) rfl hD hS (by decide)
    fun _ _ => 7
  exact ⟨hagree.1, (hagree.2 3 (by decide)).1⟩

end Solidc.Streams
