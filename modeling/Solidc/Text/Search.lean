import Solidc.Lib.Buffer
import Solidc.Lib.CString
import Solidc.Lib.Substring
import Mathlib.Order.Nat

/-! # Searching bytes

`cstr_search` and `str_search_impl` are one algorithm under two names: `memchr` finds the next
place where the first byte stands, the last byte is compared there, then the bytes between them,
one by one for short needles and with `memcmp` for longer ones.

* `searchImpl` — the algorithm; a value means that no byte outside of the blocks was read;
* `searchImpl_eq` — it finds the first occurrence.
-/

namespace Solidc.Text

open CLib

/-! ## The code -/

/-- `memchr(mem + off, c, n)`, as an offset from `mem + off`. -/
def memchr (mem : List UInt8) (off : Nat) (c : UInt8) (n : Nat) : Option (Option Nat) :=
  (load mem off n).map (·.idxOf? c)

/-- `memcmp(p + i, q + j, n) == 0`. -/
def memcmpEq (p : List UInt8) (i : Nat) (q : List UInt8) (j n : Nat) : Option Bool := do
  let a ← load p i n
  let b ← load q j n
  some (a == b)

/-- `for (; i < k; i++) if (p[i] != q[i]) goto next_iter;` for the `k` bytes from `p + i` and
`q + j` on: whether it reaches the end. -/
def sameLoop (p : List UInt8) (i : Nat) (q : List UInt8) (j : Nat) : Nat → Option Bool
  | 0 => some true
  | k + 1 => do
    let a ← p[i]?
    let b ← q[j]?
    if a ≠ b then some false else sameLoop p (i + 1) q (j + 1) k

/-- Whether the needle stands at `cur`, where its first byte does. -/
def matchesAt (hs nd : List UInt8) (nlen cur : Nat) : Option Bool := do
  let guard ← hs[cur + nlen - 1]?
  let last ← nd[nlen - 1]?
  if guard = last then
    if nlen ≤ 9 then sameLoop hs (cur + 1) nd 1 (nlen - 2)
    else memcmpEq hs (cur + 1) nd 1 (nlen - 2)
  else some false

/-- The main loop, with `last` for the last place where the needle has room. -/
def searchLoop (hs nd : List UInt8) (nlen : Nat) (first : UInt8) (last cur : Nat) :
    Option (Option Nat) :=
  if cur ≤ last then
    match memchr hs cur first (last - cur + 1) with
    | none => none
    | some none => some none
    | some (some k) =>
      match matchesAt hs nd nlen (cur + k) with
      | none => none
      | some true => some (some (cur + k))
      | some false => searchLoop hs nd nlen first last (cur + k + 1)
  else some none
termination_by last + 1 - cur

/-- The search for `nlen` bytes of `nd` in the `hlen` bytes from `hs + off` on; the result is an
offset in `hs`. -/
def searchImpl (hs : List UInt8) (off hlen : Nat) (nd : List UInt8) (nlen : Nat) :
    Option (Option Nat) :=
  if nlen = 0 then some (some off)
  else if hlen < nlen then some none
  else do
    let first ← nd[0]?
    if nlen = 1 then (memchr hs off first hlen).map (·.map (off + ·))
    else searchLoop hs nd nlen first (off + hlen - nlen) off

def cstrSearch := searchImpl
def strSearchImpl := searchImpl

/-! ## The first occurrence -/

variable {hs nd hay rest : List UInt8}

/-- `memchr` finds the first place, if there is one. -/
theorem memchr_cases {mem : List UInt8} {off n : Nat} (h : off + n ≤ mem.length) (c : UInt8) :
    (memchr mem off c n = some none ∧ ∀ j < n, mem[off + j]? ≠ some c) ∨
      ∃ k < n, memchr mem off c n = some (some k) ∧ mem[off + k]? = some c ∧
        ∀ j < k, mem[off + j]? ≠ some c := by
  have hget : ∀ j < n, ((mem.drop off).take n)[j]? = mem[off + j]? := by
    intro j hj
    rw [List.getElem?_take_of_lt hj, List.getElem?_drop]
  have hlen : ((mem.drop off).take n).length = n := by
    rw [List.length_take, List.length_drop]
    omega
  rw [memchr, load_eq h, Option.map_some]
  generalize (mem.drop off).take n = l at hget hlen
  subst hlen
  cases hfind : l.idxOf? c with
  | none =>
    refine .inl ⟨rfl, fun j hj hc => ?_⟩
    rw [← hget j hj] at hc
    exact List.idxOf?_eq_none_iff.mp hfind (List.mem_of_getElem? hc)
  | some k =>
    obtain ⟨hk, hc, hfirst⟩ := List.idxOf?_eq_some_iff.mp hfind
    refine .inr ⟨k, hk, rfl, ?_, fun j hj hcj => ?_⟩
    · rw [← hget k hk, List.getElem?_eq_getElem hk, hc]
    · rw [← hget j (by omega), List.getElem?_eq_getElem (by omega)] at hcj
      exact hfirst j hj (Option.some.inj hcj)

theorem sameLoop_eq {p q : List UInt8} {i j k : Nat} (hp : i + k ≤ p.length)
    (hq : j + k ≤ q.length) :
    sameLoop p i q j k = some (decide ((p.drop i).take k = (q.drop j).take k)) := by
  induction k generalizing i j with
  | zero => simp [sameLoop]
  | succ k ih =>
    have hi : i < p.length := by omega
    have hj : j < q.length := by omega
    rw [sameLoop, List.getElem?_eq_getElem hi, List.getElem?_eq_getElem hj,
      List.drop_eq_getElem_cons hi, List.drop_eq_getElem_cons hj, List.take_succ_cons,
      List.take_succ_cons]
    simp only [Option.bind_eq_bind, Option.bind_some, List.cons.injEq]
    split
    case isTrue hne => simp [hne]
    case isFalse heq => rw [ih (by omega) (by omega)]; simp [not_not.mp heq]

theorem memcmpEq_eq {p q : List UInt8} {i j k : Nat} (hp : i + k ≤ p.length)
    (hq : j + k ≤ q.length) :
    memcmpEq p i q j k = some (decide ((p.drop i).take k = (q.drop j).take k)) := by
  rw [memcmpEq, load_eq hp, load_eq hq]
  simp [beq_eq_decide]

/-- At a place with the first byte of the needle, for a needle of two bytes at least. -/
theorem matchesAt_eq (pre : List UInt8) {mid mid' : List UInt8} (post post' : List UInt8)
    (a z z' : UInt8) (hmid : mid'.length = mid.length) :
    matchesAt (pre ++ a :: (mid' ++ z' :: post)) (a :: (mid ++ z :: post')) (mid.length + 2)
      pre.length = some (decide (mid' ++ [z'] = mid ++ [z])) := by
  have hguard : (pre ++ a :: (mid' ++ z' :: post))[pre.length + (mid.length + 2) - 1]? =
      some z' := by
    rw [List.getElem?_append_right (by omega), ← hmid,
      show pre.length + (mid'.length + 2) - 1 - pre.length = mid'.length + 1 by omega,
      List.getElem?_cons_succ, List.getElem?_append_right le_rfl, Nat.sub_self]
    rfl
  have hlast : (a :: (mid ++ z :: post'))[mid.length + 2 - 1]? = some z := by
    rw [show mid.length + 2 - 1 = mid.length + 1 by omega, List.getElem?_cons_succ,
      List.getElem?_append_right le_rfl, Nat.sub_self]
    rfl
  have hhs : ((pre ++ a :: (mid' ++ z' :: post)).drop (pre.length + 1)).take mid.length = mid' := by
    rw [← List.drop_drop, List.drop_left, List.drop_succ_cons, List.drop_zero,
      List.take_left' hmid]
  have hnd : ((a :: (mid ++ z :: post')).drop 1).take mid.length = mid := by
    rw [List.drop_succ_cons, List.drop_zero, List.take_left]
  have hp : pre.length + 1 + mid.length ≤ (pre ++ a :: (mid' ++ z' :: post)).length := by
    simp only [List.length_append, List.length_cons]
    omega
  have hq : 1 + mid.length ≤ (a :: (mid ++ z :: post')).length := by
    simp only [List.length_append, List.length_cons]
    omega
  rw [matchesAt, hguard, hlast]
  simp only [Option.bind_eq_bind, Option.bind_some, Nat.add_sub_cancel,
    sameLoop_eq hp hq, memcmpEq_eq hp hq, hhs, hnd, ite_self]
  split
  case isTrue heq => simp [heq]
  case isFalse hne =>
    have hdiffer : mid' ++ [z'] ≠ mid ++ [z] := fun h =>
      hne (List.singleton_inj.mp (List.append_inj_right h hmid))
    rw [decide_eq_false hdiffer]

/-- A list of two elements at least has a first one, a last one and those between them. -/
theorem exists_first_last {l : List UInt8} (h : 2 ≤ l.length) :
    ∃ a mid z, l = a :: (mid ++ [z]) := by
  cases l with
  | nil => simp at h
  | cons a l =>
    have hne : l ≠ [] := by
      rintro rfl
      simp at h
    exact ⟨a, l.dropLast, l.getLast hne, by rw [List.dropLast_append_getLast hne]⟩

/-- The place is right when the needle stands there. -/
theorem matchesAt_iff_prefix {d : List UInt8} (post : List UInt8) {cur : Nat} (hd : 2 ≤ d.length)
    (hcur : cur + d.length ≤ hs.length) (hfirst : hs[cur]? = d[0]?) :
    matchesAt hs (d ++ post) d.length cur = some (decide (d <+: hs.drop cur)) := by
  obtain ⟨a, mid, z, rfl⟩ := exists_first_last hd
  have hlen : (a :: (mid ++ [z])).length = mid.length + 2 := by simp
  rw [hlen] at hcur
  -- the bytes that are compared with the needle
  have hwin : ((hs.drop cur).take (mid.length + 2)).length = mid.length + 2 := by
    rw [List.length_take, List.length_drop]
    omega
  obtain ⟨a', mid', z', hw⟩ := exists_first_last (by omega :
    2 ≤ ((hs.drop cur).take (mid.length + 2)).length)
  have hmid : mid'.length = mid.length := by
    rw [hw] at hwin
    simpa using hwin
  have hdrop : hs.drop cur = a' :: (mid' ++ [z']) ++ hs.drop (cur + (mid.length + 2)) := by
    rw [← hw, ← List.drop_drop, List.take_append_drop]
  have hsplit : hs = hs.take cur ++ a' :: (mid' ++ z' :: hs.drop (cur + (mid.length + 2))) := by
    conv_lhs => rw [← List.take_append_drop cur hs, hdrop]
    simp
  have htake : (hs.take cur).length = cur := by
    rw [List.length_take]
    omega
  obtain rfl : a' = a := by
    have hhead : hs[cur]? = some a' := by
      conv_lhs => rw [hsplit]
      rw [List.getElem?_append_right htake.le, htake, Nat.sub_self]
      rfl
    simpa [hhead] using hfirst
  have hiff : a' :: (mid ++ [z]) <+: hs.drop cur ↔ mid' ++ [z'] = mid ++ [z] := by
    rw [List.prefix_iff_eq_take, hlen, hw, List.cons.injEq]
    exact ⟨fun h => h.2.symm, fun h => ⟨rfl, h.symm⟩⟩
  have hat := matchesAt_eq (hs.take cur) (hs.drop (cur + (mid.length + 2))) post a' z z' hmid
  rw [← hsplit, htake] at hat
  rw [hlen, decide_eq_decide.mpr hiff, ← hat]
  simp

theorem prefix_drop_take {d : List UInt8} (hs : List UInt8) {c n : Nat} (hc : c + d.length ≤ n) :
    d <+: (hs.take n).drop c ↔ d <+: hs.drop c := by
  rw [List.drop_take, List.prefix_iff_eq_take, List.prefix_iff_eq_take, List.take_take,
    Nat.min_eq_left (by omega)]

/-- The loop finds the first occurrence that ends before `last + nlen`. -/
theorem searchLoop_eq {d : List UInt8} (post : List UInt8) {first : UInt8} {last cur : Nat}
    (hd : 2 ≤ d.length)
    (hfirst : d[0]? = some first) (hlast : last + d.length ≤ hs.length) (hcur : cur ≤ last + 1) :
    searchLoop hs (d ++ post) d.length first last cur =
      some ((findSub d ((hs.take (last + d.length)).drop cur)).map (cur + ·)) := by
  induction hn : last + 1 - cur using Nat.strongRecOn generalizing cur with
  | ind n ih =>
  subst hn
  have hhay : (hs.take (last + d.length)).length = last + d.length := by
    rw [List.length_take, Nat.min_eq_left hlast]
  -- an occurrence has the first byte of the needle and room for the others
  have hhead : ∀ c, d <+: (hs.take (last + d.length)).drop c → c ≤ last ∧ hs[c]? = some first := by
    intro c hpre
    have hfits := hpre.length_le
    rw [List.length_drop, hhay] at hfits
    refine ⟨by omega, ?_⟩
    obtain ⟨t, ht⟩ := (prefix_drop_take hs (by omega)).mp hpre
    rw [← Nat.add_zero c, ← List.getElem?_drop, ← ht, List.getElem?_append_left (by omega), hfirst]
  unfold searchLoop
  split
  case isFalse hend =>
    have hnone : findSub d ((hs.take (last + d.length)).drop cur) = none := by
      refine findSub_eq_none_iff.mpr fun j _ hpre => ?_
      rw [List.drop_drop] at hpre
      have := (hhead _ hpre).1
      omega
    rw [hnone]
    rfl
  case isTrue hle =>
    rcases memchr_cases (by omega : cur + (last - cur + 1) ≤ hs.length) first with
      ⟨hchr, hno⟩ | ⟨k, hk, hchr, hc, hno⟩
    · have hnone : findSub d ((hs.take (last + d.length)).drop cur) = none := by
        refine findSub_eq_none_iff.mpr fun j _ hpre => ?_
        rw [List.drop_drop] at hpre
        obtain ⟨hj, hget⟩ := hhead _ hpre
        exact hno j (by omega) hget
      rw [hchr, hnone]
      rfl
    · -- no occurrence starts before the byte that was found
      have hskip : findSub d ((hs.take (last + d.length)).drop cur) =
          (findSub d ((hs.take (last + d.length)).drop (cur + k))).map (· + k) := by
        rw [← List.drop_drop]
        refine findSub_drop (by rw [List.length_drop, hhay]; omega) fun j hj hpre => ?_
        rw [List.drop_drop] at hpre
        exact hno j hj (hhead _ hpre).2
      have hmatch := matchesAt_iff_prefix post hd (by omega : cur + k + d.length ≤ _)
        (hc.trans hfirst.symm)
      have hiff := prefix_drop_take hs (by omega : cur + k + d.length ≤ last + d.length)
      rw [hchr, hskip]
      simp only [hmatch]
      by_cases hpre : d <+: hs.drop (cur + k)
      · have hfound : findSub d ((hs.take (last + d.length)).drop (cur + k)) = some 0 :=
          findSub_eq_some_iff.mpr ⟨Nat.zero_le _, hiff.mpr hpre,
            fun j hj => absurd hj (Nat.not_lt_zero j)⟩
        rw [decide_eq_true hpre, hfound]
        simp
      · have hstep : findSub d ((hs.take (last + d.length)).drop (cur + k)) =
            (findSub d ((hs.take (last + d.length)).drop (cur + k + 1))).map (· + 1) := by
          have hlater : (hs.take (last + d.length)).drop (cur + k + 1) =
              ((hs.take (last + d.length)).drop (cur + k)).drop 1 := List.drop_drop.symm
          rw [hlater]
          refine findSub_drop (by rw [List.length_drop, hhay]; omega) fun j hj => ?_
          obtain rfl : j = 0 := by omega
          exact fun h => hpre (hiff.mp h)
        rw [decide_eq_false hpre, hstep]
        simp only
        rw [ih (last + 1 - (cur + k + 1)) (by omega) (by omega) rfl]
        cases findSub d ((hs.take (last + d.length)).drop (cur + k + 1)) with
        | none => rfl
        | some i => simp; omega

/-- The search for `d` in the `hlen` bytes from `hs + off` on finds its first occurrence. -/
theorem searchImpl_eq {d post : List UInt8} {off hlen : Nat} (hd : d ≠ [])
    (hoff : off + hlen ≤ hs.length) :
    searchImpl hs off hlen (d ++ post) d.length =
      some ((findSub d ((hs.drop off).take hlen)).map (off + ·)) := by
  have hpos : 0 < d.length := List.length_pos_iff.mpr hd
  have hwin : ((hs.drop off).take hlen).length = hlen := by
    rw [List.length_take, List.length_drop]
    omega
  rw [searchImpl, if_neg (by omega)]
  split
  case isTrue hshort =>
    have hnone : findSub d ((hs.drop off).take hlen) = none := by
      refine findSub_eq_none_iff.mpr fun j _ hpre => ?_
      have := hpre.length_le
      rw [List.length_drop, hwin] at this
      omega
    rw [hnone]
    rfl
  case isFalse hlong =>
    have hfirst : (d ++ post)[0]? = d[0]? := List.getElem?_append_left hpos
    rw [hfirst, List.getElem?_eq_getElem hpos]
    simp only [Option.bind_eq_bind, Option.bind_some]
    split
    case isTrue hone =>
      obtain ⟨a, rfl⟩ := List.length_eq_one_iff.mp hone
      rw [findSub_singleton, memchr, load_eq hoff, Option.map_some, Option.map_some]
      rfl
    case isFalse htwo =>
      have hloop := searchLoop_eq post (by omega : 2 ≤ d.length) (List.getElem?_eq_getElem hpos)
        (by omega : off + hlen - d.length + d.length ≤ hs.length)
        (by omega : off ≤ off + hlen - d.length + 1)
      rw [hloop, Nat.sub_add_cancel (by omega), List.drop_take, Nat.add_sub_cancel_left]

end Solidc.Text
