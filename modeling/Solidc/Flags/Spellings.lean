import Solidc.Flags.Parser

/-! # The spellings of a flag with a value

A value can be given as `--name=v`, `--name v`, `-n v`, `-nv` and `-n=v`. The two with `=` agree
for every value. A value in an argument of its own must not start with a dash, and `-nv` is
`-n=w` if `v` is `=w`.

* `spelled_longEq` and its siblings — what each spelling makes of the value;
* `spellings_agree` — the comparison, for every value;
* `negative_refused` — a negative number that only some of the spellings accept.
-/

namespace Solidc.Flags

variable {F : Type*}

/-- The ways to give a flag its value. -/
inductive Spelling where
  | longEq | longNext | shortNext | shortRest | shortEq

/-- The arguments for the flag `f` and the value `v`. -/
def Spelling.args (f : Flag F) (v : Str) : Spelling → List Str
  | longEq => [lit "--" ++ (f.name ++ 0x3D :: v)]
  | longNext => [lit "--" ++ f.name, v]
  | shortNext => [[0x2D, f.shortName], v]
  | shortRest => [0x2D :: f.shortName :: v]
  | shortEq => [0x2D :: f.shortName :: 0x3D :: v]

/-- The argument loop at such arguments, from any state, with others behind them. -/
def spelled (lib : FloatLib F) (p : Parser F) (lv : Level F) (rest : List Str) (f : Flag F)
    (v : Str) (s : Spelling) : Result F :=
  parseArgs lib p false false lv (s.args f v ++ rest)

/-- The status that is returned, if the program does not exit. -/
def Ending.code : Ending → Option FlagStatus
  | .status s _ => some s
  | .exit => none

/-- The same status, the same values stored and the same flags present. -/
structure SameOutcome (r r' : Result F) : Prop where
  code : r.ending.code = r'.ending.code
  mem : r.mem = r'.mem
  path : r.path = r'.path

/-- The flag at place `k` can be reached by its two names: it is the first one that has them, and
neither is taken for something else. -/
structure Reachable (flags : List (Flag F)) (f : Flag F) (k : Nat) : Prop where
  valued : f.type ≠ .bool
  long : findFlagLong flags f.name = some (f, k)
  short : findFlagShort flags f.shortName = some (f, k)
  nonempty : f.name ≠ []
  noHelp : f.name ≠ lit "help"
  noEq : 0x3D ∉ f.name
  fits : f.name.length ≤ 127
  noDash : f.shortName ≠ 0x2D

variable {lib : FloatLib F} {p : Parser F} {f : Flag F} {k : Nat} {lv : Level F} {v name : Str}
  {rest : List Str}

/-! ## What a spelling makes of the value -/

theorem splitLong_eq (hno : 0x3D ∉ name) (hfits : name.length ≤ 127) (v : Str) :
    splitLong (name ++ 0x3D :: v) = (name, some v) := by
  have hpass : ∀ b ∈ name, (b != 0x3D) = true := fun b hb => by
    simpa using fun h : b = 0x3D => hno (h ▸ hb)
  rw [splitLong, List.dropWhile_append_of_pos hpass, List.takeWhile_append_of_pos hpass]
  simp [List.take_of_length_le hfits]

theorem splitLong_plain (hno : 0x3D ∉ name) : splitLong name = (name, none) := by
  have hpass : ∀ b ∈ name, (b != 0x3D) = true := fun b hb => by
    simpa using fun h : b = 0x3D => hno (h ▸ hb)
  have hnone : name.dropWhile (· != 0x3D) = [] := by
    rw [← List.append_nil name, List.dropWhile_append_of_pos hpass]
    rfl
  rw [splitLong, hnone]

/-- The value is stored, or the loop ends with an error of this text. -/
def valued (lib : FloatLib F) (p : Parser F) (f : Flag F) (k : Nat) (lv : Level F) (v text : Str)
    (rest : List Str) : Result F :=
  continueWith lib p rest ((storeValue lib (lv.mark k) f v text).map (·, false))

section spelled

variable (lib p lv) (hr : Reachable p.flags f k)
include hr

theorem spelled_longEq (v : Str) (rest : List Str) :
    parseArgs lib p false false lv (Spelling.args f v .longEq ++ rest) =
      valued lib p f k lv v (invalidLong f v) rest := by
  have hhelp : f.name ++ 0x3D :: v ≠ lit "help" := by
    intro h
    have hmem : (0x3D : UInt8) ∈ lit "help" := h ▸ List.mem_append_right _ List.mem_cons_self
    exact absurd hmem (by decide)
  rw [Spelling.args, List.singleton_append, parseArgs_long (by simp) hhelp, longFlag,
    splitLong_eq hr.noEq hr.fits, hr.long]
  simp only [hr.valued, if_false]
  rfl

theorem spelled_longNext (hdash : v.head? ≠ some 0x2D) (rest : List Str) :
    parseArgs lib p false false lv (Spelling.args f v .longNext ++ rest) =
      valued lib p f k lv v (invalidLong f v) rest := by
  have hnext : nextValue (v :: rest) = some v := if_neg hdash
  rw [Spelling.args, List.cons_append, List.singleton_append,
    parseArgs_long hr.nonempty hr.noHelp, longFlag, splitLong_plain hr.noEq, hr.long]
  simp only [hr.valued, if_false, hnext, valued]
  cases storeValue lib (lv.mark k) f v (invalidLong f v) with
  | ok lv' => exact parseArgs_skip false v rest
  | error e => rfl

theorem spelled_shortNext (hdash : v.head? ≠ some 0x2D) (rest : List Str) :
    parseArgs lib p false false lv (Spelling.args f v .shortNext ++ rest) =
      valued lib p f k lv v (invalidShort f.shortName) rest := by
  have hnext : nextValue (v :: rest) = some v := if_neg hdash
  rw [Spelling.args, List.cons_append, List.singleton_append, parseArgs_short hr.noDash,
    shortFlags, hr.short]
  simp only [hr.valued, if_false, hnext, valued]
  cases storeValue lib (lv.mark k) f v (invalidShort f.shortName) with
  | ok lv' => exact parseArgs_skip false v rest
  | error e => rfl

theorem spelled_attached (c : UInt8) (cs : Str) (rest : List Str) :
    parseArgs lib p false false lv ((0x2D :: f.shortName :: c :: cs) :: rest) =
      valued lib p f k lv (attached (c :: cs)) (invalidShort f.shortName) rest := by
  rw [parseArgs_short hr.noDash, shortFlags, hr.short]
  simp only [hr.valued, if_false]
  rfl

/-- No value can be taken from the next argument. -/
theorem spelled_dash (hdash : v.head? = some 0x2D) (rest : List Str) :
    parseArgs lib p false false lv (Spelling.args f v .longNext ++ rest) =
        ⟨fail .missingValue (lit "Flag --" ++ f.name ++ lit " requires a value"),
          [(p, lv.mark k)], lv.mem⟩ ∧
      parseArgs lib p false false lv (Spelling.args f v .shortNext ++ rest) =
        ⟨fail .missingValue (lit "Flag -" ++ [f.shortName] ++ lit " requires a value"),
          [(p, lv.mark k)], lv.mem⟩ := by
  have hnext : nextValue (v :: rest) = none := if_pos hdash
  constructor
  · rw [Spelling.args, List.cons_append, List.singleton_append,
      parseArgs_long hr.nonempty hr.noHelp, longFlag, splitLong_plain hr.noEq, hr.long]
    simp only [hr.valued, if_false, hnext]
    rfl
  · rw [Spelling.args, List.cons_append, List.singleton_append, parseArgs_short hr.noDash,
      shortFlags, hr.short]
    simp only [hr.valued, if_false, hnext]
    rfl

end spelled

/-- The error text makes no difference to the outcome. -/
theorem valued_sameOutcome (v text text' : Str) (rest : List Str) :
    SameOutcome (valued lib p f k lv v text rest) (valued lib p f k lv v text' rest) := by
  rw [valued, valued, storeValue, storeValue]
  cases parseValue lib f.type v with
  | ok x => exact ⟨rfl, rfl, rfl⟩
  | error status => exact ⟨rfl, rfl, rfl⟩

theorem attached_plain (h : v.head? ≠ some 0x3D) : attached v = v := by
  unfold attached
  split
  · exact absurd rfl h
  · rfl

/-! ## The comparison -/

/-- What the five spellings of a value do at any place of the loop: the two with `=` agree, `-nv`
agrees with them unless `v` is `=w`, which it takes for `-n=w`, and the two with `v` in an argument
of its own agree with them unless `v` starts with a dash, where they miss a value. -/
theorem spellings_agree (lib : FloatLib F) (p : Parser F) (lv : Level F) (rest : List Str)
    (hr : Reachable p.flags f k) (hv : v ≠ []) :
    SameOutcome (spelled lib p lv rest f v .shortEq) (spelled lib p lv rest f v .longEq) ∧
      (v.head? ≠ some 0x3D →
        SameOutcome (spelled lib p lv rest f v .shortRest) (spelled lib p lv rest f v .longEq)) ∧
      (∀ w, v = 0x3D :: w →
        SameOutcome (spelled lib p lv rest f v .shortRest) (spelled lib p lv rest f w .longEq)) ∧
      (v.head? ≠ some 0x2D →
        SameOutcome (spelled lib p lv rest f v .longNext) (spelled lib p lv rest f v .longEq) ∧
        SameOutcome (spelled lib p lv rest f v .shortNext) (spelled lib p lv rest f v .longEq)) ∧
      (v.head? = some 0x2D → ∀ s ∈ [Spelling.longNext, .shortNext],
        (spelled lib p lv rest f v s).ending.code = some .missingValue ∧
          (spelled lib p lv rest f v s).mem = lv.mem) := by
  have hlong : ∀ v, spelled lib p lv rest f v .longEq =
      valued lib p f k lv v (invalidLong f v) rest := fun v => spelled_longEq lib p lv hr v rest
  have hattached : ∀ c cs, spelled lib p lv rest f (c :: cs) .shortRest =
      valued lib p f k lv (attached (c :: cs)) (invalidShort f.shortName) rest := fun c cs =>
    spelled_attached lib p lv hr c cs rest
  refine ⟨?_, fun heq => ?_, fun w hw => ?_, fun hdash => ⟨?_, ?_⟩, fun hdash s hs => ?_⟩
  · rw [hlong]
    -- the arguments are those of `-nv` for the value with `=` in front
    exact (hattached 0x3D v) ▸ valued_sameOutcome ..
  · obtain ⟨c, cs, rfl⟩ := List.exists_cons_of_ne_nil hv
    rw [hattached, attached_plain heq, hlong]
    exact valued_sameOutcome ..
  · rw [hw, hattached, hlong]
    exact valued_sameOutcome ..
  · rw [spelled, spelled_longNext lib p lv hr hdash rest, hlong]
    exact valued_sameOutcome ..
  · rw [spelled, spelled_shortNext lib p lv hr hdash rest, hlong]
    exact valued_sameOutcome ..
  · obtain ⟨hnextLong, hnextShort⟩ := spelled_dash lib p lv hr hdash rest
    rcases List.mem_cons.mp hs with rfl | hs
    · rw [spelled, hnextLong]
      exact ⟨rfl, rfl⟩
    · rw [List.mem_singleton.mp hs, spelled, hnextShort]
      exact ⟨rfl, rfl⟩

/-- A program with one flag, `--priority` or `-p`, for a small number. -/
def priorityFlag : Flag Unit := ⟨.int8, lit "priority", 0x70, 0, false, none⟩

theorem spellings_agree_priority :
    SameOutcome
      (spelled ⟨fun _ => none, fun _ => none⟩ (.mk (lit "app") [priorityFlag] [])
        (.fresh fun _ => .int 0) [] priorityFlag (lit "50") .longNext)
      (spelled ⟨fun _ => none, fun _ => none⟩ (.mk (lit "app") [priorityFlag] [])
        (.fresh fun _ => .int 0) [] priorityFlag (lit "50") .longEq) := by
  have hr : Reachable [priorityFlag] priorityFlag 0 :=
    ⟨by decide, rfl, rfl, by decide, by decide, by decide, by decide, by decide⟩
  have hall := spellings_agree (v := lit "50") ⟨fun _ => none, fun _ => none⟩
    (.mk (lit "app") [priorityFlag] []) (.fresh fun _ => .int 0) [] hr (by decide)
  exact (hall.2.2.2.1 (by decide)).1

/-- `--priority=-50` is accepted and `--priority -50` is not. -/
theorem negative_refused :
    ¬ ∀ s ∈ [Spelling.longEq, .longNext, .shortNext, .shortRest, .shortEq], SameOutcome
      (flagParse ⟨fun _ => none, fun _ => none⟩ (.mk (lit "app") [priorityFlag] [])
        (lit "app" :: s.args priorityFlag (lit "-50")) fun _ => .int 0)
      (flagParse ⟨fun _ => none, fun _ => none⟩ (.mk (lit "app") [priorityFlag] [])
        (lit "app" :: Spelling.longEq.args priorityFlag (lit "-50")) fun _ => .int 0) := by
  intro h
  have hcode := (h .longNext (by simp)).code
  have hnext : (flagParse ⟨fun _ => none, fun _ => none⟩ (.mk (lit "app") [priorityFlag] [])
      (lit "app" :: Spelling.longNext.args priorityFlag (lit "-50")) fun _ => .int 0).ending.code =
        some .missingValue := rfl
  have heq : (flagParse ⟨fun _ => none, fun _ => none⟩ (.mk (lit "app") [priorityFlag] [])
      (lit "app" :: Spelling.longEq.args priorityFlag (lit "-50")) fun _ => .int 0).ending.code =
        some .ok := rfl
  rw [hnext, heq] at hcode
  cases hcode

end Solidc.Flags
