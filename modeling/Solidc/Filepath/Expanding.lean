import Solidc.Filepath.Naming

/-! # The home directory of a path

`filepath_expanduser` and `filepath_expanduser_buf` on a POSIX system. `home` is the value of
`HOME`, and `malloc` says for which sizes there is a block. The path and the value of `HOME` lie
in memory, so the sum of their lengths is a `size_t`.

* `expandedPath` — the path that `filepath_expanduser` makes when there is memory for it;
* `expanduserBuf_writes` — what `filepath_expanduser_buf` writes, kind of path by kind of path;
* `expandsAlike_iff` — for which paths, homes and buffers the two agree.
-/

namespace Solidc.Filepath

open CLib

def tilde : UInt8 := 0x7E

inductive Errno where
  | einval
  | enoent
  | enomem
  | enametoolong
  deriving DecidableEq

/-! ## The code -/

/-- `path[0] != '~'`. -/
def untilded (path : Path) : Bool := path[0]? != some tilde

/-- `isHome`: a tilde alone or with one separator behind it. -/
def isHome (path : Path) : Bool :=
  path.length == 1 || (path.length == 2 && path[1]?.any isSep)

/-- `suffix`: the path without its tilde and one separator behind it. -/
def suffixOf (path : Path) : Path :=
  if path[1]?.any isSep then path.drop 2 else path.drop 1

def strdup (malloc : Nat → Bool) (s : Path) : Except Errno Path :=
  if malloc (s.length + 1) then .ok s else .error .enomem

def filepathExpanduser (malloc : Nat → Bool) (home : Option Path) :
    Option Path → Except Errno Path
  | none => .error .einval
  | some path =>
    if untilded path then strdup malloc path
    else
      match home with
      | none => .error .enoent
      | some home =>
        if isHome path then strdup malloc home
        else
          let len := home.length + path.length + 1
          if malloc len then .ok ((joined home (suffixOf path)).take (len - 1))
          else .error .enomem

/-- What `filepath_expanduser_buf` leaves: its buffer, its result, and `errno` if it sets it. -/
structure Expansion where
  buffer : Option (List UInt8)
  ok : Bool
  errno : Option Errno

/-- `safe_strlcpy(expanded, src, len) < len`. -/
def copyExpanded (mem : List UInt8) (src : Path) (len : Nat) : Option Expansion := do
  let (mem, n) ← safeStrlcpy mem src len
  some ⟨some mem, decide (n < len), none⟩

def filepathExpanduserBuf (home : Option Path) (path : Option Path)
    (expanded : Option (List UInt8)) (len : Nat) : Option Expansion :=
  match path, expanded with
  | some path, some mem =>
    if len = 0 then (emptied (some mem)).map fun out => ⟨out, false, some .einval⟩
    else if untilded path then copyExpanded mem path len
    else
      match home with
      | none => some ⟨some mem, false, some .enoent⟩
      | some home =>
        if isHome path then copyExpanded mem home len
        else if home.length + path.length + 1 > len then
          some ⟨some mem, false, some .enametoolong⟩
        else do
          let mem ← store mem 0 ((joined home (path.drop 1)).take (len - 1) ++ [0])
          some ⟨some mem, true, none⟩
  | _, out => (emptied out).map fun out => ⟨out, false, some .einval⟩

/-! ## Agreement -/

/-- The buffer starts with a text and its terminator. -/
def Starts (text : Path) (mem : List UInt8) : Prop := text ++ [0] <+: mem

/-- `filepath_expanduser_buf` stays inside the block `mem`, and it succeeds exactly when
`filepath_expanduser` does so with a result shorter than `len`, which is then in the buffer. -/
def ExpandsAlike (malloc : Nat → Bool) (home : Option Path) (path : Path) (mem : List UInt8)
    (len : Nat) : Prop :=
  ∃ out, filepathExpanduserBuf home (some path) (some mem) len = some out ∧
    (out.ok = true ↔
      ∃ r, filepathExpanduser malloc home (some path) = .ok r ∧ r.length < len) ∧
    ∀ r, out.ok = true → filepathExpanduser malloc home (some path) = .ok r →
      ∃ mem', out.buffer = some mem' ∧ Starts r mem'

/-- For a buffer of `len > 0` bytes: an untilded path and the home directory have memory for
their copy and are shorter than `len`; with a separator behind the tilde neither function
succeeds; with another byte there the first one has memory or the buffer is too small. -/
def ExpandsInto (malloc : Nat → Bool) (home : Option Path) (path : Path) (len : Nat) : Prop :=
  if untilded path then malloc (path.length + 1) = true ∧ path.length < len
  else
    match home with
    | none => True
    | some home =>
      if isHome path then malloc (home.length + 1) = true ∧ home.length < len
      else if path[1]?.any isSep then
        len < home.length + path.length ∨
          len = home.length + path.length ∧ malloc (len + 1) = false
      else malloc (home.length + path.length + 1) = true ∨ len ≤ home.length + path.length

theorem Starts.cstrOf_eq {text : Path} {mem : List UInt8} (h : Starts text mem) (hnul : 0 ∉ text) :
    cstrOf mem = text := by
  obtain ⟨rest, rfl⟩ := h
  rw [List.append_assoc]
  exact cstrOf_append hnul

theorem starts_store {mem mem' : List UInt8} {text : Path}
    (h : store mem 0 (text ++ [0]) = some mem') : Starts text mem' := store_starts h

section Cases

variable {malloc : Nat → Bool} {home : Option Path} {path : Path} {mem : List UInt8} {len : Nat}

theorem alike_of_true {mem' : List UInt8} {errno : Option Errno}
    (h : filepathExpanduserBuf home (some path) (some mem) len = some ⟨some mem', true, errno⟩) :
    ExpandsAlike malloc home path mem len ↔
      ∃ r, filepathExpanduser malloc home (some path) = .ok r ∧ r.length < len ∧
        Starts r mem' := by
  constructor
  · rintro ⟨out, hout, hok, hholds⟩
    obtain rfl := Option.some.inj (h.symm.trans hout)
    obtain ⟨r, hr, hlen⟩ := hok.mp rfl
    obtain ⟨mem'', hmem, hstarts⟩ := hholds r rfl hr
    obtain rfl := Option.some.inj hmem
    exact ⟨r, hr, hlen, hstarts⟩
  · rintro ⟨r, hr, hlen, hstarts⟩
    refine ⟨_, h, ⟨fun _ => ⟨r, hr, hlen⟩, fun _ => rfl⟩, fun r' _ hr' => ?_⟩
    obtain rfl := Except.ok.inj (hr.symm.trans hr')
    exact ⟨mem', rfl, hstarts⟩

theorem alike_of_false {out : Option (List UInt8)} {errno : Option Errno}
    (h : filepathExpanduserBuf home (some path) (some mem) len = some ⟨out, false, errno⟩) :
    ExpandsAlike malloc home path mem len ↔
      ∀ r, filepathExpanduser malloc home (some path) = .ok r → len ≤ r.length := by
  constructor
  · rintro ⟨out', hout, hok, _⟩ r hr
    obtain rfl := Option.some.inj (h.symm.trans hout)
    by_contra hlen
    exact absurd (hok.mpr ⟨r, hr, not_le.mp hlen⟩) (by simp)
  · intro hall
    refine ⟨_, h, ⟨fun hok => absurd hok (by simp), ?_⟩, fun r hok => absurd hok (by simp)⟩
    rintro ⟨r, hr, hlen⟩
    exact absurd (hall r hr) (not_le.mpr hlen)

/-- A copy never reports that it was cut off. -/
theorem copyExpanded_eq (hlen : len ≠ 0) (hmem : len ≤ mem.length) (src : Path) :
    ∃ mem', copyExpanded mem src len = some ⟨some mem', true, none⟩ ∧
      Starts (src.take (len - 1)) mem' := by
  have hn : src.take (min src.length (len - 1)) = src.take (len - 1) := by
    rw [Nat.min_comm, ← List.take_take, List.take_length]
  have hlt : (src.take (len - 1)).length < mem.length := by
    rw [List.length_take]
    omega
  obtain ⟨mem', hstore⟩ := exists_store hlt
  -- the number of copied bytes is compared, which is always below `len`
  have hcut : min src.length (len - 1) < len := by omega
  refine ⟨mem', ?_, starts_store hstore⟩
  rw [copyExpanded, safeStrlcpy, if_neg hlen]
  simp [hn, hstore, hcut]

/-- Where `filepath_expanduser_buf` copies a text, that text has to be in memory and to fit. -/
theorem alike_copied {text : Path} (hlen : len ≠ 0) (hmem : len ≤ mem.length)
    (hbuf : filepathExpanduserBuf home (some path) (some mem) len = copyExpanded mem text len)
    (hdup : filepathExpanduser malloc home (some path) = strdup malloc text) :
    ExpandsAlike malloc home path mem len ↔
      malloc (text.length + 1) = true ∧ text.length < len := by
  obtain ⟨mem', hcopy, hstarts⟩ := copyExpanded_eq hlen hmem text
  rw [alike_of_true (hbuf.trans hcopy), hdup, strdup]
  by_cases hm : malloc (text.length + 1) = true
  · rw [if_pos hm]
    constructor
    · rintro ⟨r, hr, hfits, _⟩
      obtain rfl := Except.ok.inj hr
      exact ⟨hm, hfits⟩
    · rintro ⟨_, hfits⟩
      rw [List.take_of_length_le (by omega)] at hstarts
      exact ⟨text, rfl, hfits, hstarts⟩
  · rw [if_neg hm]
    constructor
    · rintro ⟨r, hr, _⟩
      cases hr
    · rintro ⟨h, _⟩
      exact absurd h hm

end Cases

/-! ## A path below the home directory -/

section Below

variable {malloc : Nat → Bool} {home path : Path}

theorem two_le_length (ht : untilded path = false) (hh : isHome path = false) :
    2 ≤ path.length := by
  rcases path with _ | ⟨c, _ | ⟨d, rest⟩⟩
  · cases ht
  · cases hh
  · simp

/-- A separator behind the tilde is left out. -/
theorem length_suffixOf_sep (hsep : path[1]?.any isSep = true) :
    (suffixOf path).length = path.length - 2 := by
  rw [suffixOf, if_pos hsep, List.length_drop]

theorem three_le_length (hh : isHome path = false) (hsep : path[1]?.any isSep = true) :
    3 ≤ path.length := by
  rcases path with _ | ⟨c, _ | ⟨d, _ | ⟨e, rest⟩⟩⟩
  · cases hsep
  · cases hsep
  · exact absurd hsep (by simpa [isHome] using hh)
  · simp

theorem suffixOf_plain (hsep : path[1]?.any isSep = false) : suffixOf path = path.drop 1 := by
  rw [suffixOf, hsep, if_neg Bool.false_ne_true]

theorem length_joined (path1 path2 : Path) :
    (joined path1 path2).length = path1.length + (path2.length + 1) := List.length_append

/-- What stands behind the tilde, with its separator, below the home directory. -/
theorem length_joined_drop (home : Path) (hpath : path ≠ []) :
    (joined home (path.drop 1)).length = home.length + path.length := by
  rw [length_joined, List.length_drop, Nat.sub_add_cancel (List.length_pos_iff.mpr hpath)]

theorem ne_nil_of_tilde (ht : untilded path = false) : path ≠ [] := by
  rintro rfl
  cases ht

/-- The block of `filepath_expanduser` holds all that is written. -/
theorem expanduser_below (ht : untilded path = false) (hh : isHome path = false) :
    filepathExpanduser malloc (some home) (some path) =
      if malloc (home.length + path.length + 1) then .ok (joined home (suffixOf path))
      else .error .enomem := by
  have htwo := two_le_length ht hh
  have hfits : (joined home (suffixOf path)).length ≤ home.length + path.length + 1 - 1 := by
    cases hsep : path[1]?.any isSep with
    | true =>
      rw [length_joined, length_suffixOf_sep hsep]
      omega
    | false =>
      rw [suffixOf_plain hsep, length_joined_drop home (ne_nil_of_tilde ht)]
      exact Nat.le_refl _
  simp only [filepathExpanduser, ht, hh, List.take_of_length_le hfits]
  rfl

/-- `filepath_expanduser_buf` writes what stands behind the tilde, separator and all. -/
theorem expanduserBuf_below {mem : List UInt8} {len : Nat} (hmem : len ≤ mem.length)
    (ht : untilded path = false) (hh : isHome path = false)
    (hroom : home.length + path.length + 1 ≤ len) :
    ∃ mem', filepathExpanduserBuf (some home) (some path) (some mem) len =
      some ⟨some mem', true, none⟩ ∧ Starts (joined home (path.drop 1)) mem' := by
  have hlen := length_joined_drop home (ne_nil_of_tilde ht)
  have hall : (joined home (path.drop 1)).take (len - 1) = joined home (path.drop 1) :=
    List.take_of_length_le (by omega)
  have hne : len ≠ 0 := by omega
  have hlt : (joined home (path.drop 1)).length < mem.length := by omega
  obtain ⟨mem', hstore⟩ := exists_store hlt
  refine ⟨mem', ?_, starts_store hstore⟩
  simp only [filepathExpanduserBuf, if_neg hne, ht, hh, if_neg (not_lt.mpr hroom), hall, hstore]
  rfl

theorem expanduserBuf_below_small {mem : List UInt8} {len : Nat} (hlen : len ≠ 0)
    (ht : untilded path = false) (hh : isHome path = false)
    (hroom : len < home.length + path.length + 1) :
    filepathExpanduserBuf (some home) (some path) (some mem) len =
      some ⟨some mem, false, some .enametoolong⟩ := by
  simp only [filepathExpanduserBuf, if_neg hlen, ht, hh, if_pos hroom]
  rfl

/-- With a separator behind the tilde the buffer gets one byte more than the block. -/
theorem alike_sep {mem : List UInt8} {len : Nat} (hlen : len ≠ 0) (hmem : len ≤ mem.length)
    (ht : untilded path = false) (hh : isHome path = false) (hsep : path[1]?.any isSep = true)
    (hhome : 0 ∉ home) (hpath : 0 ∉ path) :
    ExpandsAlike malloc (some home) path mem len ↔
      len < home.length + path.length ∨
        len = home.length + path.length ∧ malloc (len + 1) = false := by
  have hthree := three_le_length hh hsep
  have hlength : (joined home (suffixOf path)).length = home.length + path.length - 1 := by
    rw [length_joined, length_suffixOf_sep hsep]
    omega
  rcases Nat.lt_or_ge len (home.length + path.length + 1) with hroom | hroom
  · rw [alike_of_false (expanduserBuf_below_small hlen ht hh hroom), expanduser_below ht hh]
    cases hm : malloc (home.length + path.length + 1) with
    | true =>
      constructor
      · intro hall
        have hle := hall _ rfl
        omega
      · rintro (hlt | ⟨rfl, hno⟩) r hr
        · obtain rfl := Except.ok.inj hr
          omega
        · rw [hno] at hm
          cases hm
    | false =>
      refine ⟨fun _ => ?_, fun _ r hr => by cases hr⟩
      rcases Nat.lt_or_ge len (home.length + path.length) with hlt | hge
      · exact Or.inl hlt
      · obtain rfl : len = home.length + path.length := by omega
        exact Or.inr ⟨rfl, hm⟩
  · -- both succeed, and the results differ by the separator
    obtain ⟨mem', hbuf, hstarts⟩ := expanduserBuf_below hmem ht hh hroom
    rw [alike_of_true hbuf, expanduser_below ht hh]
    constructor
    · rintro ⟨r, hr, _, hr'⟩
      exfalso
      split at hr
      · obtain rfl := Except.ok.inj hr
        have hnul : ∀ n, 0 ∉ joined home (path.drop n) := by
          intro n h
          rcases List.mem_append.mp h with h | h
          · exact hhome h
          · rcases List.mem_cons.mp h with h | h
            · cases h
            · exact hpath (List.mem_of_mem_drop h)
        have hdrop : suffixOf path = path.drop 2 := by rw [suffixOf, if_pos hsep]
        rw [hdrop] at hr'
        have heq := (hr'.cstrOf_eq (hnul 2)).symm.trans (hstarts.cstrOf_eq (hnul 1))
        have hcount := congrArg List.length heq
        rw [length_joined, length_joined, List.length_drop, List.length_drop] at hcount
        omega
      · cases hr
    · intro h
      omega

/-- With any other byte there both write the same. -/
theorem alike_plain {mem : List UInt8} {len : Nat} (hlen : len ≠ 0) (hmem : len ≤ mem.length)
    (ht : untilded path = false) (hh : isHome path = false)
    (hsep : path[1]?.any isSep = false) :
    ExpandsAlike malloc (some home) path mem len ↔
      malloc (home.length + path.length + 1) = true ∨ len ≤ home.length + path.length := by
  have hlength := length_joined_drop home (ne_nil_of_tilde ht)
  rcases Nat.lt_or_ge len (home.length + path.length + 1) with hroom | hroom
  · rw [alike_of_false (expanduserBuf_below_small hlen ht hh hroom), expanduser_below ht hh,
      suffixOf_plain hsep]
    refine ⟨fun _ => Or.inr (by omega), fun _ r hr => ?_⟩
    split at hr
    · obtain rfl := Except.ok.inj hr
      omega
    · cases hr
  · obtain ⟨mem', hbuf, hstarts⟩ := expanduserBuf_below hmem ht hh hroom
    rw [alike_of_true hbuf, expanduser_below ht hh, suffixOf_plain hsep]
    by_cases hm : malloc (home.length + path.length + 1) = true
    · rw [if_pos hm]
      exact ⟨fun _ => Or.inl hm, fun _ => ⟨_, rfl, by omega, hstarts⟩⟩
    · rw [if_neg hm]
      constructor
      · rintro ⟨r, hr, _⟩
        cases hr
      · rintro (h | h)
        · exact absurd h hm
        · omega

end Below

/-- An empty buffer gets a terminator all the same. -/
theorem alike_empty (malloc : Nat → Bool) (home : Option Path) (path : Path) (mem : List UInt8) :
    ExpandsAlike malloc home path mem 0 ↔ mem ≠ [] := by
  cases mem with
  | nil => simp [ExpandsAlike, filepathExpanduserBuf, emptied, store]
  | cons b mem =>
    have hbuf : filepathExpanduserBuf home (some path) (some (b :: mem)) 0 =
        some ⟨some (0 :: mem), false, some .einval⟩ := by
      simp [filepathExpanduserBuf, emptied, store]
    rw [alike_of_false hbuf]
    simp

theorem alike_into (malloc : Nat → Bool) (home : Option CString) (path : CString)
    {mem : List UInt8} {len : Nat} (hlen : len ≠ 0) (hmem : len ≤ mem.length) :
    ExpandsAlike malloc (home.map CString.bytes) path.bytes mem len ↔
      ExpandsInto malloc (home.map CString.bytes) path.bytes len := by
  cases ht : untilded path.bytes with
  | true =>
    have hbuf : filepathExpanduserBuf (home.map CString.bytes) (some path.bytes) (some mem) len =
        copyExpanded mem path.bytes len := by
      simp [filepathExpanduserBuf, hlen, ht]
    refine (alike_copied hlen hmem hbuf ?_).trans ?_
    · simp [filepathExpanduser, ht]
    · simp [ExpandsInto, ht]
  | false =>
    cases home with
    | none =>
      have hbuf : filepathExpanduserBuf none (some path.bytes) (some mem) len =
          some ⟨some mem, false, some .enoent⟩ := by
        simp [filepathExpanduserBuf, hlen, ht]
      rw [Option.map_none, alike_of_false hbuf]
      simp [filepathExpanduser, ExpandsInto, ht]
    | some home =>
      cases hh : isHome path.bytes with
      | true =>
        have hbuf : filepathExpanduserBuf (some home.bytes) (some path.bytes) (some mem) len =
            copyExpanded mem home.bytes len := by
          simp [filepathExpanduserBuf, hlen, ht, hh]
        refine (alike_copied hlen hmem hbuf ?_).trans ?_
        · simp [filepathExpanduser, ht, hh]
        · simp [ExpandsInto, ht, hh]
      | false =>
        cases hsep : path.bytes[1]?.any isSep with
        | true =>
          refine (alike_sep hlen hmem ht hh hsep home.nulFree path.nulFree).trans ?_
          simp [ExpandsInto, ht, hh, hsep]
        | false =>
          refine (alike_plain hlen hmem ht hh hsep).trans ?_
          simp [ExpandsInto, ht, hh, hsep]

/-- The two functions agree exactly on the inputs of `ExpandsInto`, and on an empty buffer when
there is a byte behind it for the terminator. -/
theorem expandsAlike_iff (malloc : Nat → Bool) (home : Option CString) (path : CString)
    (out : OutBuffer) :
    ExpandsAlike malloc (home.map CString.bytes) path.bytes out.mem out.size ↔
      out.mem ≠ [] ∧
        (out.size = 0 ∨ ExpandsInto malloc (home.map CString.bytes) path.bytes out.size) := by
  obtain ⟨mem, len, hinside⟩ := out
  by_cases hlen : len = 0
  · subst hlen
    rw [alike_empty]
    simp
  · have hmem : mem ≠ [] := by
      rintro rfl
      exact hlen (Nat.le_zero.mp hinside)
    rw [alike_into malloc home path hlen hinside]
    simp [hmem, hlen]

/-- `~/x` with `HOME=/h` and a buffer of six bytes: it gets `/h//x`. -/
theorem expandsAlike_doubled :
    ∃ (home path : CString) (out : OutBuffer), home.bytes = [slash, 104] ∧
      path.bytes = [tilde, slash, 120] ∧ out.size = 6 ∧
      filepathExpanduser (fun _ => true) (some home.bytes) (some path.bytes) =
        .ok [slash, 104, slash, 120] ∧
      filepathExpanduserBuf (some home.bytes) (some path.bytes) (some out.mem) out.size =
        some ⟨some [slash, 104, slash, slash, 120, 0], true, none⟩ ∧
      ¬ ExpandsAlike (fun _ => true) (some home.bytes) path.bytes out.mem out.size := by
  refine ⟨⟨[slash, 104], by decide⟩, ⟨[tilde, slash, 120], by decide⟩,
    ⟨List.replicate 6 0, 6, by decide⟩, rfl, rfl, rfl, rfl, rfl, ?_⟩
  rintro ⟨out, hout, _, hholds⟩
  obtain rfl := Option.some.inj hout
  obtain ⟨mem, hmem, hstarts⟩ := hholds [slash, 104, slash, 120] rfl rfl
  obtain rfl := Option.some.inj hmem
  exact absurd hstarts (by unfold Starts; decide)

end Solidc.Filepath
