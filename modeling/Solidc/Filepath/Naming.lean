import Solidc.Filepath.Walk
import Solidc.Lib.Buffer
import Solidc.Lib.CString

/-! # The parts of a path

`filepath_basename`, `filepath_extension` and `filepath_nameonly` write a part of a path into a
buffer of the caller. A slash separates the components of a path, in a path without a slash a
backslash.

* `baseOf`, `extensionOf`, `nameOf` — what the three functions write when there is room;
* `baseOf_append_of_noSep` — the base name ends with what stands behind the last separator;
* `names_fit_iff` — name and extension make up the base name when the last dot of the path
  stands behind its separators.
-/

namespace Solidc.Filepath

open CLib

def backslash : UInt8 := 0x5C

def isSep (c : UInt8) : Bool := c == slash || c == backslash

/-- `BASENAME_MAX`. -/
def basenameMax : Nat := 512

/-! ## The code -/

/-- `safe_strlcpy` into the block `dst`; the result is the number of bytes it copied. -/
def safeStrlcpy (dst : List UInt8) (src : Path) (size : Nat) : Option (List UInt8 × Nat) :=
  if size = 0 then some (dst, 0)
  else do
    let n := min src.length (size - 1)
    some (← store dst 0 (src.take n ++ [0]), n)

/-- `if (out) out[0] = '\0'`. -/
def emptied : Option (List UInt8) → Option (Option (List UInt8))
  | none => some none
  | some mem => (store mem 0 [0]).map some

/-- The start of the three functions: without a path or room for it the buffer is emptied. -/
def withBuffer (path : Option Path) (out : Option (List UInt8)) (size : Nat)
    (write : Path → List UInt8 → Option (List UInt8)) : Option (Option (List UInt8)) :=
  match path, out with
  | some path, some mem => if size = 0 then emptied (some mem) else (write path mem).map some
  | _, out => emptied out

/-- `base ? base + 1 : path` of `filepath_basename`. -/
def baseOf (path : Path) : Path :=
  match (strrchr slash path).or (strrchr backslash path) with
  | some base => base.tail
  | none => path

def filepathBasename (path : Option Path) (basename : Option (List UInt8)) (size : Nat) :
    Option (Option (List UInt8)) :=
  withBuffer path basename size fun path mem => do
    let (mem, _) ← safeStrlcpy mem (baseOf path) size
    some mem

/-- `dot ? dot : ""` of `filepath_extension`. -/
def extensionOf (path : Path) : Path := (strrchr dot path).getD []

def filepathExtension (path : Option Path) (ext : Option (List UInt8)) (size : Nat) :
    Option (Option (List UInt8)) :=
  withBuffer path ext size fun path mem => do
    let (mem, _) ← safeStrlcpy mem (extensionOf path) size
    some mem

/-- `source_len` of `filepath_nameonly`: the length of the base name without its extension. -/
def sourceLen (base : Path) : Nat :=
  match strrchr dot base with
  | some ext => base.length - ext.length
  | none => base.length

def filepathNameonly (path : Option Path) (name : Option (List UInt8)) (size : Nat) :
    Option (Option (List UInt8)) :=
  withBuffer path name size fun path mem => do
    let base ← (← filepathBasename (some path) (some (List.replicate basenameMax 0)) basenameMax)
    let base := cstrOf base
    let toCopy := if sourceLen base < size - 1 then sourceLen base else size - 1
    store mem 0 (base.take toCopy ++ [0])

/-! ## What is written -/

/-- What `filepath_nameonly` writes. -/
def nameOf (path : Path) : Path := (baseOf path).take (sourceLen (baseOf path))

/-- A buffer of the caller, of which the first `size` bytes may be written. -/
structure OutBuffer where
  mem : List UInt8
  size : Nat
  inside : size ≤ mem.length

/-- A text with its terminator at the start of a block. -/
theorem cstrOf_store {mem mem' : List UInt8} {text : Path} (h : store mem 0 (text ++ [0]) = some mem')
    (hnul : 0 ∉ text) : cstrOf mem' = text := by
  obtain ⟨rest, rfl⟩ := store_starts h
  rw [List.append_assoc]
  exact cstrOf_append hnul

theorem exists_store {mem : List UInt8} {text : Path} (h : text.length < mem.length) :
    ∃ mem', store mem 0 (text ++ [0]) = some mem' :=
  ⟨_, store_eq (by simp; omega)⟩

/-- With room for the text `safe_strlcpy` copies all of it. -/
theorem safeStrlcpy_eq {mem : List UInt8} {text : Path} {size : Nat} (h : text.length < size) :
    safeStrlcpy mem text size = (store mem 0 (text ++ [0])).map fun mem => (mem, text.length) := by
  have hsize : size ≠ 0 := by omega
  have hall : min text.length (size - 1) = text.length := by omega
  rw [safeStrlcpy, if_neg hsize]
  simp only [hall, List.take_length]
  cases store mem 0 (text ++ [0]) <;> rfl

/-- Behind the separator at which the base name starts there is no separator. -/
theorem baseOf_cases (path : Path) :
    (baseOf path = path ∧ ∀ c ∈ path, isSep c = false) ∨
      ∃ dir sep, path = dir ++ sep :: baseOf path ∧ isSep sep = true := by
  unfold baseOf
  by_cases hs : slash ∈ path
  · obtain ⟨dir, base, rfl, hbase⟩ := exists_last hs
    rw [strrchr_append hbase]
    exact Or.inr ⟨dir, slash, rfl, rfl⟩
  · -- without a slash the last backslash counts
    rw [strrchr_eq_none_iff.mpr hs, Option.none_or]
    by_cases hb : backslash ∈ path
    · obtain ⟨dir, base, rfl, hbase⟩ := exists_last hb
      rw [strrchr_append hbase]
      exact Or.inr ⟨dir, backslash, rfl, rfl⟩
    · rw [strrchr_eq_none_iff.mpr hb]
      refine Or.inl ⟨rfl, fun c hc => ?_⟩
      have hslash : c ≠ slash := fun h => hs (h ▸ hc)
      have hback : c ≠ backslash := fun h => hb (h ▸ hc)
      simp [isSep, hslash, hback]

theorem length_baseOf_le (path : Path) : (baseOf path).length ≤ path.length := by
  rcases baseOf_cases path with ⟨h, _⟩ | ⟨dir, sep, h, _⟩
  · rw [h]
  · have hlen := congrArg List.length h
    simp only [List.length_append, List.length_cons] at hlen
    omega

theorem mem_of_mem_baseOf {path : Path} {c : UInt8} (h : c ∈ baseOf path) : c ∈ path := by
  rcases baseOf_cases path with ⟨hall, _⟩ | ⟨dir, sep, hsplit, _⟩
  · rwa [hall] at h
  · rw [hsplit]
    exact List.mem_append_right _ (List.mem_cons_of_mem _ h)

/-- Text without a separator goes to the base name. -/
theorem baseOf_append_of_noSep {tail : Path} (h : ∀ c ∈ tail, isSep c = false) (path : Path) :
    baseOf (path ++ tail) = baseOf path ++ tail := by
  have hslash : slash ∉ tail := fun hc => absurd (h _ hc) (by decide)
  have hback : backslash ∉ tail := fun hc => absurd (h _ hc) (by decide)
  unfold baseOf
  by_cases hs : slash ∈ path
  · obtain ⟨dir, base, rfl, hbase⟩ := exists_last hs
    have hlast : slash ∉ base ++ tail := by simp [hbase, hslash]
    rw [List.append_assoc, List.cons_append, strrchr_append hlast, strrchr_append hbase]
    rfl
  · rw [strrchr_eq_none_iff.mpr hs, strrchr_eq_none_iff.mpr (by simp [hs, hslash]),
      Option.none_or, Option.none_or]
    by_cases hb : backslash ∈ path
    · obtain ⟨dir, base, rfl, hbase⟩ := exists_last hb
      have hlast : backslash ∉ base ++ tail := by simp [hbase, hback]
      rw [List.append_assoc, List.cons_append, strrchr_append hlast, strrchr_append hbase]
      rfl
    · rw [strrchr_eq_none_iff.mpr hb, strrchr_eq_none_iff.mpr (by simp [hb, hback])]

/-! ## The three functions with room for their results -/

/-- `filepath_basename` and `filepath_extension` copy a text into the buffer. -/
theorem copied_text {path text : Path} {out : OutBuffer}
    {write : Path → List UInt8 → Option (List UInt8)}
    (hwrite : ∀ mem, write path mem = (safeStrlcpy mem text out.size).map Prod.fst)
    (hroom : text.length < out.size) (hnul : 0 ∉ text) :
    ∃ mem, withBuffer (some path) (some out.mem) out.size write = some (some mem) ∧
      cstrOf mem = text := by
  have hsize : out.size ≠ 0 := by omega
  obtain ⟨mem, hmem⟩ := exists_store (lt_of_lt_of_le hroom out.inside)
  refine ⟨mem, ?_, cstrOf_store hmem hnul⟩
  rw [withBuffer, if_neg hsize, hwrite, safeStrlcpy_eq hroom, hmem]
  rfl

theorem filepathBasename_text {path : Path} {out : OutBuffer}
    (hroom : (baseOf path).length < out.size) (hnul : 0 ∉ path) :
    ∃ mem, filepathBasename (some path) (some out.mem) out.size = some (some mem) ∧
      cstrOf mem = baseOf path := by
  refine copied_text (fun mem => ?_) hroom fun h => hnul (mem_of_mem_baseOf h)
  cases safeStrlcpy mem (baseOf path) out.size <;> rfl

theorem extensionOf_subset {path : Path} {c : UInt8} (h : c ∈ extensionOf path) : c ∈ path := by
  unfold extensionOf at h
  by_cases hdot : dot ∈ path
  · obtain ⟨l, r, rfl, hr⟩ := exists_last hdot
    rw [strrchr_append hr] at h
    exact List.mem_append_right _ h
  · rw [strrchr_eq_none_iff.mpr hdot] at h
    cases h

theorem length_extensionOf_le (path : Path) : (extensionOf path).length ≤ path.length := by
  unfold extensionOf
  by_cases hdot : dot ∈ path
  · obtain ⟨l, r, rfl, hr⟩ := exists_last hdot
    rw [strrchr_append hr]
    simp
  · simp [strrchr_eq_none_iff.mpr hdot]

theorem filepathExtension_text {path : Path} {out : OutBuffer}
    (hroom : path.length < out.size) (hnul : 0 ∉ path) :
    ∃ mem, filepathExtension (some path) (some out.mem) out.size = some (some mem) ∧
      cstrOf mem = extensionOf path := by
  refine copied_text (fun mem => ?_) (lt_of_le_of_lt (length_extensionOf_le path) hroom)
    fun h => hnul (extensionOf_subset h)
  cases safeStrlcpy mem (extensionOf path) out.size <;> rfl

/-- `base[BASENAME_MAX]` of `filepath_nameonly`. -/
def localBase : OutBuffer := ⟨List.replicate basenameMax 0, basenameMax, by simp⟩

theorem sourceLen_le (base : Path) : sourceLen base ≤ base.length := by
  unfold sourceLen
  split <;> omega

theorem filepathNameonly_text {path : Path} {out : OutBuffer} (hroom : path.length < out.size)
    (hbase : (baseOf path).length < basenameMax) (hnul : 0 ∉ path) :
    ∃ mem, filepathNameonly (some path) (some out.mem) out.size = some (some mem) ∧
      cstrOf mem = nameOf path := by
  -- the base name is first copied to the local buffer, and its part before the dot from there
  have hlocal : (baseOf path).length < localBase.size := hbase
  obtain ⟨base, hrun, htext⟩ := filepathBasename_text hlocal hnul
  have hlen := length_baseOf_le path
  have hsource := sourceLen_le (baseOf path)
  have hcopy : (if sourceLen (baseOf path) < out.size - 1 then sourceLen (baseOf path)
      else out.size - 1) = sourceLen (baseOf path) := by
    split <;> omega
  have hshort : (nameOf path).length < out.mem.length := by
    have hinside := out.inside
    rw [nameOf, List.length_take]
    omega
  obtain ⟨mem, hmem⟩ := exists_store hshort
  refine ⟨mem, ?_, cstrOf_store hmem fun h => hnul (mem_of_mem_baseOf (List.mem_of_mem_take h))⟩
  have hsize : out.size ≠ 0 := by omega
  rw [filepathNameonly, withBuffer, if_neg hsize]
  change (Option.map some ((filepathBasename (some path) (some localBase.mem) localBase.size).bind _))
    = _
  rw [hrun]
  rw [nameOf] at hmem
  simp only [Option.bind_some, bind, htext, hcopy, hmem, Option.map_some]

/-! ## Name and extension -/

/-- The base name is the name with the extension behind it, and the extension contains no
separator. -/
def NamesFit (path : Path) (basename name ext : OutBuffer) : Prop :=
  ∃ b n e, filepathBasename (some path) (some basename.mem) basename.size = some (some b) ∧
    filepathNameonly (some path) (some name.mem) name.size = some (some n) ∧
    filepathExtension (some path) (some ext.mem) ext.size = some (some e) ∧
    cstrOf b = cstrOf n ++ cstrOf e ∧ ∀ c ∈ cstrOf e, isSep c = false

/-- If the path has a dot, then one stands behind each of its separators. -/
def DotsBehind (path : Path) : Prop :=
  dot ∈ path → ∀ dir sep rest, path = dir ++ sep :: rest → isSep sep = true → dot ∈ rest

/-- The parts of a path whose last dot is known. -/
theorem parts_of_last {dir ext : Path} (h : dot ∉ ext) (hsep : ∀ c ∈ ext, isSep c = false) :
    baseOf (dir ++ dot :: ext) = nameOf (dir ++ dot :: ext) ++ dot :: ext := by
  have hall : ∀ c ∈ dot :: ext, isSep c = false := by
    intro c hc
    rcases List.mem_cons.mp hc with rfl | hc
    · rfl
    · exact hsep c hc
  rw [nameOf, baseOf_append_of_noSep hall, sourceLen, strrchr_append h]
  simp

/-- With a dot in the path, the extension is free of separators when a dot is behind each. -/
theorem dotsBehind_iff {dir ext : Path} (h : dot ∉ ext) :
    DotsBehind (dir ++ dot :: ext) ↔ ∀ c ∈ ext, isSep c = false := by
  constructor
  · intro hd c hc
    by_contra hsep
    obtain ⟨l, r, rfl⟩ := List.append_of_mem hc
    have hr : dot ∈ r := hd (by simp) (dir ++ dot :: l) c r (by simp) (by simpa using hsep)
    exact h (by simp [hr])
  · intro hall _ dir' sep rest hsplit hsep
    by_contra hrest
    have hne : dot ≠ sep := by
      rintro rfl
      cases hsep
    have htail : dot ∉ sep :: rest := by simp [hne, hrest]
    -- the last dot stands in front of the separator or behind it
    rcases List.append_eq_append_iff.mp hsplit with ⟨mid, _, hmid⟩ | ⟨mid, _, hmid⟩
    · cases mid with
      | nil => exact hne (List.cons.inj hmid).1
      | cons b mid =>
        have hin : sep ∈ ext := by simp [(List.cons.inj hmid).2]
        exact absurd (hall sep hin) (by simp [hsep])
    · exact htail (by simp [hmid])

/-- With buffers longer than the path and a base name that fits into the local buffer, name and
extension make up the base name exactly when a dot stands behind each separator, or there is no
dot at all. -/
theorem names_fit_iff (path : CString) (basename name ext : OutBuffer)
    (hbasename : path.len < basename.size) (hname : path.len < name.size)
    (hext : path.len < ext.size) (hbase : (baseOf path.bytes).length < basenameMax) :
    NamesFit path.bytes basename name ext ↔ DotsBehind path.bytes := by
  obtain ⟨b, hb, hbt⟩ := filepathBasename_text
    (lt_of_le_of_lt (length_baseOf_le path.bytes) hbasename) path.nulFree
  obtain ⟨n, hn, hnt⟩ := filepathNameonly_text hname hbase path.nulFree
  obtain ⟨e, he, het⟩ := filepathExtension_text hext path.nulFree
  have hfit : NamesFit path.bytes basename name ext ↔
      baseOf path.bytes = nameOf path.bytes ++ extensionOf path.bytes ∧
        ∀ c ∈ extensionOf path.bytes, isSep c = false := by
    simp [NamesFit, hb, hn, he, hbt, hnt, het]
  rw [hfit]
  by_cases hdot : dot ∈ path.bytes
  · -- the extension starts at the last dot of the path, which need not be in the base name
    obtain ⟨dir, tail, hpath, htail⟩ := exists_last hdot
    rw [hpath, dotsBehind_iff htail, extensionOf, strrchr_append htail, Option.getD_some]
    constructor
    · rintro ⟨_, hall⟩ c hc
      exact hall c (List.mem_cons_of_mem _ hc)
    · intro hall
      refine ⟨parts_of_last htail hall, fun c hc => ?_⟩
      rcases List.mem_cons.mp hc with rfl | hc
      · rfl
      · exact hall c hc
  · -- no dot: no extension, and the name is the base name
    have hbdot : dot ∉ baseOf path.bytes := fun h => hdot (mem_of_mem_baseOf h)
    rw [extensionOf, strrchr_eq_none_iff.mpr hdot, nameOf, sourceLen, strrchr_eq_none_iff.mpr hbdot]
    simp [DotsBehind, hdot]

/-- `a/b.c`, with buffers of six bytes. -/
theorem names_fit_plain :
    ∃ path : CString, path.bytes = [97, slash, 98, dot, 99] ∧
      ∃ out : OutBuffer, out.size = 6 ∧ NamesFit path.bytes out out out := by
  refine ⟨⟨[97, slash, 98, dot, 99], by decide⟩, rfl, ⟨List.replicate 6 0, 6, by simp⟩, rfl, ?_⟩
  refine (names_fit_iff ⟨[97, slash, 98, dot, 99], by decide⟩ _ _ _ (by decide) (by decide)
    (by decide) (by decide)).mpr ?_
  have hplain : DotsBehind ([97, slash, 98] ++ [dot, 99]) :=
    (dotsBehind_iff (by decide)).mpr fun c hc => by rw [List.mem_singleton.mp hc]; rfl
  exact hplain

/-- `a.b/c`: its extension is `.b/c`, and it is not at the end of the base name `c`. -/
theorem extension_of_directory :
    ∃ (path : CString) (out : OutBuffer), path.bytes = [97, dot, 98, slash, 99] ∧
      path.len < out.size ∧ (baseOf path.bytes).length < basenameMax ∧
      ¬ NamesFit path.bytes out out out := by
  refine ⟨⟨[97, dot, 98, slash, 99], by decide⟩, ⟨List.replicate 6 0, 6, by simp⟩, rfl, by decide,
    by decide, ?_⟩
  rintro ⟨b, n, e, hb, hn, he, heq, hsep⟩
  obtain rfl : _ = e := Option.some.inj (Option.some.inj he)
  exact absurd (hsep slash (by decide)) (by decide)

end Solidc.Filepath
