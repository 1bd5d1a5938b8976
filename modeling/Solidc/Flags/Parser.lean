import Solidc.Lib.CNumber
import Mathlib.Data.List.Basic
import Mathlib.Logic.Function.Basic

/-! # Command-line flags

`flag_parse` over a tree of parsers. An argument is a string without its terminator, and a
flag writes its value to a variable. The variables are one memory, since two flags may
share one. `strtof` and `strtod` are parameters.

* `Parser` — what `flag_parser_new`, `flag_add` and `flag_add_subcommand` build;
* `parseValue` — `parse_value`;
* `validate` — the loop over the flags at the end of `flag_parse`;
* `parseArgs`, `flagParse` — `flag_parse`; `parseArgs_long` and its siblings describe a turn of its
  loop for each kind of argument.
-/

namespace Solidc.Flags

open CLib

/-- A string without its terminator. -/
abbrev Str : Type := List UInt8

/-- The bytes of a literal. -/
def lit (s : String) : Str := s.toUTF8.data.toList

inductive FlagStatus where
  | ok
  | allocation
  | unknownFlag
  | missingValue
  | invalidNumber
  | validation
  | requiredMissing
  | unknownSubcommand
  | invalidArgument
deriving DecidableEq

inductive FlagDataType where
  | bool | char | string
  | int8 | uint8 | int16 | uint16 | int32 | uint32 | int64 | uint64 | sizeT
  | float | double
deriving DecidableEq

/-- What a flag's variable holds; `F` is the type of floating-point numbers. -/
inductive Value (F : Type*) where
  | bool (b : Bool)
  | char (c : UInt8)
  | string (s : Str)
  | int (z : Int)
  | float (x : F)

variable {F : Type*}

/-- A validator accepts a value, or rejects it, perhaps with a text. -/
inductive Verdict where
  | accept
  | reject (err : Option Str)

/-- A registered flag. -/
structure Flag (F : Type*) where
  type : FlagDataType
  name : Str
  shortName : UInt8
  valuePtr : Nat
  required : Bool
  validator : Option (Value F → Verdict)

/-- A parser with its flags and its subcommands. -/
inductive Parser (F : Type*) where
  | mk (name : Str) (flags : List (Flag F)) (subcommands : List (Parser F))

def Parser.name : Parser F → Str
  | mk name _ _ => name

def Parser.flags : Parser F → List (Flag F)
  | mk _ flags _ => flags

def Parser.subcommands : Parser F → List (Parser F)
  | mk _ _ subcommands => subcommands

/-- `strtof` and `strtod` over a whole string: none if they reject it. -/
structure FloatLib (F : Type*) where
  strtof : Str → Option F
  strtod : Str → Option F

/-- `strcasecmp(s, t) == 0`. -/
def sameIgnoringCase (s t : Str) : Bool := s.map toLower == t.map toLower

/-- The values that a `bool` flag takes as false. -/
def isFalse (s : Str) : Bool := sameIgnoringCase s (lit "false") || s == lit "0"

/-- The range of a signed type. -/
def signedBits : FlagDataType → Nat
  | .int8 => 8
  | .int16 => 16
  | .int32 => 32
  | _ => 64

/-- The range of an unsigned type. -/
def unsignedBits : FlagDataType → Nat
  | .uint8 => 8
  | .uint16 => 16
  | .uint32 => 32
  | _ => 64

def parseSigned (type : FlagDataType) (s : Str) : Except FlagStatus (Value F) :=
  match wholeLongLong s with
  | some z =>
    if -2 ^ (signedBits type - 1) ≤ z ∧ z < 2 ^ (signedBits type - 1) then .ok (.int z)
    else .error .invalidNumber
  | none => .error .invalidNumber

def parseUnsigned (type : FlagDataType) (s : Str) : Except FlagStatus (Value F) :=
  if s.head? = some 0x2D then .error .invalidNumber
  else
    match wholeUnsignedLongLong s with
    | some n => if n < 2 ^ unsignedBits type then .ok (.int n) else .error .invalidNumber
    | none => .error .invalidNumber

/-- `parse_value`: the value to be stored. -/
def parseValue (lib : FloatLib F) (type : FlagDataType) (s : Str) : Except FlagStatus (Value F) :=
  match type with
  | .bool => .ok (.bool (!isFalse s))
  | .char =>
    match s with
    | [] => .error .missingValue
    | [c] => .ok (.char c)
    | _ => .error .invalidArgument
  | .string => .ok (.string s)
  | .int8 | .int16 | .int32 | .int64 => parseSigned type s
  | .uint8 | .uint16 | .uint32 | .uint64 | .sizeT => parseUnsigned type s
  | .float => (lib.strtof s).elim (.error .invalidNumber) fun x => .ok (.float x)
  | .double => (lib.strtod s).elim (.error .invalidNumber) fun x => .ok (.float x)

/-! ## State -/

/-- The variables of the flags. -/
abbrev Memory (F : Type*) : Type _ := Nat → Value F

/-- What `flag_parse` has found on one level: the flags present, by their place in the
parser, the positional arguments, and the memory. -/
structure Level (F : Type*) where
  present : Nat → Bool
  positional : List Str
  mem : Memory F

/-- A parser that is not yet parsed. -/
def Level.fresh (mem : Memory F) : Level F := ⟨fun _ => false, [], mem⟩

/-- The flag at place `k` is found. -/
def Level.mark (lv : Level F) (k : Nat) : Level F :=
  { lv with present := Function.update lv.present k true }

def Level.store (lv : Level F) (f : Flag F) (v : Value F) : Level F :=
  { lv with mem := Function.update lv.mem f.valuePtr v }

/-- How `flag_parse` ends: with a status and the error text, or the program exits. -/
inductive Ending where
  | status (status : FlagStatus) (error : Str)
  | exit

/-- `set_error`: the buffer holds 127 bytes and the terminator. -/
def fail (status : FlagStatus) (text : Str) : Ending := .status status (text.take 127)

/-- How `flag_parse` ended, and the levels on the path of active subcommands, the root
first, each with what was found on it. -/
structure Result (F : Type*) where
  ending : Ending
  path : List (Parser F × Level F)
  mem : Memory F

/-! ## Flags -/

/-- `find_flag_long`: the first flag with the name, and its place. -/
def findFlagLong (flags : List (Flag F)) (name : Str) : Option (Flag F × Nat) :=
  flags.zipIdx.find? fun fk => fk.1.name == name

/-- `find_flag_short`. -/
def findFlagShort (flags : List (Flag F)) (c : UInt8) : Option (Flag F × Nat) :=
  if c = 0 then none else flags.zipIdx.find? fun fk => fk.1.shortName == c

/-- The next argument, if it can be a value: it does not start with a dash. -/
def nextValue (rest : List Str) : Option Str :=
  match rest with
  | v :: _ => if v.head? = some 0x2D then none else some v
  | [] => none

/-- The name of a long flag, cut to the buffer if a value follows, and the value. -/
def splitLong (arg : Str) : Str × Option Str :=
  match arg.dropWhile (· != 0x3D) with
  | [] => (arg, none)
  | _ :: value => ((arg.takeWhile (· != 0x3D)).take 127, some value)

/-- `parse_value` for a flag, or its error. -/
def storeValue (lib : FloatLib F) (lv : Level F) (f : Flag F) (value text : Str) :
    Except (Ending × Level F) (Level F) :=
  match parseValue lib f.type value with
  | .ok v => .ok (lv.store f v)
  | .error status => .error (fail status text, lv)

/-- The error text for the value of a long flag. -/
def invalidLong (f : Flag F) (value : Str) : Str :=
  lit "Invalid value for --" ++ f.name ++ lit ": '" ++ value ++ lit "' (Type mismatch or overflow)"

/-- A long flag, `name` being the argument without its dashes. The result tells whether the
next argument was taken as the value. -/
def longFlag (lib : FloatLib F) (flags : List (Flag F)) (name : Str) (rest : List Str)
    (lv : Level F) : Except (Ending × Level F) (Level F × Bool) :=
  match findFlagLong flags (splitLong name).1 with
  | none => .error (fail .unknownFlag (lit "Unknown flag: --" ++ (splitLong name).1), lv)
  | some (f, k) =>
    if f.type = .bool then
      .ok ((lv.mark k).store f (.bool (!(splitLong name).2.any isFalse)), false)
    else
      match (splitLong name).2, nextValue rest with
      | some value, _ => (storeValue lib (lv.mark k) f value (invalidLong f value)).map (·, false)
      | none, some value => (storeValue lib (lv.mark k) f value (invalidLong f value)).map (·, true)
      | none, none =>
        .error (fail .missingValue (lit "Flag --" ++ f.name ++ lit " requires a value"), lv.mark k)

/-- The value in the rest of an argument of short flags. -/
def attached : Str → Str
  | 0x3D :: value => value
  | value => value

/-- The error text for the value of a short flag. -/
def invalidShort (c : UInt8) : Str :=
  lit "Invalid value for -" ++ [c] ++ lit " (Type mismatch or overflow)"

/-- An argument of short flags, without its dash. -/
def shortFlags (lib : FloatLib F) (flags : List (Flag F)) (rest : List Str) :
    Str → Level F → Except (Ending × Level F) (Level F × Bool)
  | [], lv => .ok (lv, false)
  | c :: cs, lv =>
    match findFlagShort flags c with
    | none => .error (fail .unknownFlag (lit "Unknown short flag: -" ++ [c]), lv)
    | some (f, k) =>
      if f.type = .bool then shortFlags lib flags rest cs ((lv.mark k).store f (.bool true))
      else
        match cs, nextValue rest with
        | _ :: _, _ =>
          (storeValue lib (lv.mark k) f (attached cs) (invalidShort c)).map (·, false)
        | [], some value => (storeValue lib (lv.mark k) f value (invalidShort c)).map (·, true)
        | [], none =>
          .error (fail .missingValue (lit "Flag -" ++ [c] ++ lit " requires a value"), lv.mark k)

/-! ## Validation -/

/-- The checks of one flag. -/
def checkFlag (f : Flag F) (present : Bool) (mem : Memory F) : Option Ending :=
  if f.required && !present then
    some (fail .requiredMissing (lit "Missing required flag: --" ++ f.name))
  else if present then
    match f.validator with
    | none => none
    | some validator =>
      match validator (mem f.valuePtr) with
      | .accept => none
      | .reject err =>
        some (fail .validation
          (lit "Validation failed for --" ++ f.name ++ lit ": " ++ err.getD (lit "invalid")))
  else none

/-- The loop over the flags from place `k` on. -/
def validateFrom (lv : Level F) : Nat → List (Flag F) → Ending
  | _, [] => .status .ok []
  | k, f :: flags =>
    match checkFlag f (lv.present k) lv.mem with
    | some ending => ending
    | none => validateFrom lv (k + 1) flags

def validate (p : Parser F) (lv : Level F) : Ending := validateFrom lv 0 p.flags

/-! ## `flag_parse` -/

/-- The subcommand with the name `arg`. -/
def findSubcommand (p : Parser F) (arg : Str) : Option (Parser F) :=
  p.subcommands.find? fun sub => sub.name == arg

/-- The loop of `flag_parse` over its arguments. `skip` passes over an argument that was
taken as a value. A subcommand takes over with the rest of the arguments, and its result is
returned. -/
def parseArgs (lib : FloatLib F) (p : Parser F) (skip endOfOpts : Bool) (lv : Level F) :
    List Str → Result F
  | [] => ⟨validate p lv, [(p, lv)], lv.mem⟩
  | arg :: rest =>
    if skip then parseArgs lib p false endOfOpts lv rest
    else if !endOfOpts && arg == lit "--" then parseArgs lib p false true lv rest
    else if endOfOpts || arg.head? != some 0x2D then
      match (if endOfOpts then none else findSubcommand p arg) with
      | some sub =>
        { parseArgs lib sub false false (.fresh lv.mem) rest with
          path := (p, lv) :: (parseArgs lib sub false false (.fresh lv.mem) rest).path }
      | none =>
        parseArgs lib p false endOfOpts { lv with positional := lv.positional ++ [arg] } rest
    else if arg.take 2 == lit "--" then
      if arg.drop 2 == lit "help" then ⟨.exit, [(p, lv)], lv.mem⟩
      else
        match longFlag lib p.flags (arg.drop 2) rest lv with
        | .ok (lv', skip') => parseArgs lib p skip' endOfOpts lv' rest
        | .error (ending, lv') => ⟨ending, [(p, lv')], lv'.mem⟩
    else
      match shortFlags lib p.flags rest (arg.drop 1) lv with
      | .ok (lv', skip') => parseArgs lib p skip' endOfOpts lv' rest
      | .error (ending, lv') => ⟨ending, [(p, lv')], lv'.mem⟩

/-- `flag_parse` on a freshly built tree; `argv` starts with the program's name. -/
def flagParse (lib : FloatLib F) (p : Parser F) (argv : List Str) (mem : Memory F) : Result F :=
  match argv with
  | [] => ⟨.status .invalidArgument [], [(p, .fresh mem)], mem⟩
  | _ :: args => parseArgs lib p false false (.fresh mem) args

/-! ## A turn of the loop -/

section turn

variable {lib : FloatLib F} {p : Parser F} {lv : Level F} {name arg : Str}

theorem lit_dashes : lit "--" = [0x2D, 0x2D] := rfl

theorem lit_dash : lit "-" = [0x2D] := rfl

/-- How the loop goes on behind a flag. -/
def continueWith (lib : FloatLib F) (p : Parser F) (rest : List Str) :
    Except (Ending × Level F) (Level F × Bool) → Result F
  | .ok (lv, skip) => parseArgs lib p skip false lv rest
  | .error (ending, lv) => ⟨ending, [(p, lv)], lv.mem⟩

theorem parseArgs_skip (endOfOpts : Bool) (v : Str) (rest : List Str) :
    parseArgs lib p true endOfOpts lv (v :: rest) = parseArgs lib p false endOfOpts lv rest :=
  rfl

/-- An argument that is not skipped, in the order in which `flag_parse` asks about it. -/
theorem parseArgs_cons (endOfOpts : Bool) (arg : Str) (rest : List Str) :
    parseArgs lib p false endOfOpts lv (arg :: rest) =
      if !endOfOpts && arg == lit "--" then parseArgs lib p false true lv rest
      else if endOfOpts || arg.head? != some 0x2D then
        match (if endOfOpts then none else findSubcommand p arg) with
        | some sub =>
          { parseArgs lib sub false false (.fresh lv.mem) rest with
            path := (p, lv) :: (parseArgs lib sub false false (.fresh lv.mem) rest).path }
        | none =>
          parseArgs lib p false endOfOpts { lv with positional := lv.positional ++ [arg] } rest
      else if arg.take 2 == lit "--" then
        if arg.drop 2 == lit "help" then ⟨.exit, [(p, lv)], lv.mem⟩
        else
          match longFlag lib p.flags (arg.drop 2) rest lv with
          | .ok (lv', skip') => parseArgs lib p skip' endOfOpts lv' rest
          | .error (ending, lv') => ⟨ending, [(p, lv')], lv'.mem⟩
      else
        match shortFlags lib p.flags rest (arg.drop 1) lv with
        | .ok (lv', skip') => parseArgs lib p skip' endOfOpts lv' rest
        | .error (ending, lv') => ⟨ending, [(p, lv')], lv'.mem⟩ :=
  rfl

theorem parseArgs_end (rest : List Str) :
    parseArgs lib p false false lv (lit "--" :: rest) = parseArgs lib p false true lv rest := by
  rw [parseArgs_cons, if_pos (by simp)]

/-- Behind `--`, every argument is positional. -/
theorem parseArgs_behind (arg : Str) (rest : List Str) :
    parseArgs lib p false true lv (arg :: rest) =
      parseArgs lib p false true { lv with positional := lv.positional ++ [arg] } rest := by
  rw [parseArgs_cons, if_neg (by simp), if_pos (by simp), if_pos rfl]

/-- An argument without a dash in front. -/
theorem parseArgs_plain (hplain : arg.head? ≠ some 0x2D) (rest : List Str) :
    parseArgs lib p false false lv (arg :: rest) =
      match findSubcommand p arg with
      | some sub =>
        { parseArgs lib sub false false (.fresh lv.mem) rest with
          path := (p, lv) :: (parseArgs lib sub false false (.fresh lv.mem) rest).path }
      | none =>
        parseArgs lib p false false { lv with positional := lv.positional ++ [arg] } rest := by
  have hend : ¬ (!false && arg == lit "--") = true := by
    intro h
    have harg : arg = lit "--" := by simpa using h
    exact hplain (harg ▸ rfl)
  rw [parseArgs_cons, if_neg hend, if_pos (by simpa using hplain), if_neg Bool.false_ne_true]

/-- A dash alone has no flags behind it. -/
theorem parseArgs_dash (rest : List Str) :
    parseArgs lib p false false lv (lit "-" :: rest) = parseArgs lib p false false lv rest := by
  rw [parseArgs_cons, if_neg (by simp [lit_dash, lit_dashes]), if_neg (by simp [lit_dash]),
    if_neg (by simp [lit_dash, lit_dashes])]
  rfl

theorem parseArgs_long (hne : name ≠ []) (hhelp : name ≠ lit "help") (rest : List Str) :
    parseArgs lib p false false lv ((lit "--" ++ name) :: rest) =
      continueWith lib p rest (longFlag lib p.flags name rest lv) := by
  have hdrop : (lit "--" ++ name).drop 2 = name := rfl
  rw [parseArgs_cons, if_neg (by simpa [lit_dashes] using hne), if_neg (by simp [lit_dashes]),
    if_pos (by simp [lit_dashes]), hdrop, if_neg (by simpa using hhelp)]
  rfl

theorem parseArgs_help (rest : List Str) :
    parseArgs lib p false false lv ((lit "--" ++ lit "help") :: rest) =
      ⟨.exit, [(p, lv)], lv.mem⟩ := by
  have hdrop : (lit "--" ++ lit "help").drop 2 = lit "help" := rfl
  have hne : lit "help" ≠ [] := nofun
  rw [parseArgs_cons, if_neg (by simpa [lit_dashes] using hne), if_neg (by simp [lit_dashes]),
    if_pos (by simp [lit_dashes]), hdrop, if_pos (beq_self_eq_true _)]

theorem parseArgs_short {c : UInt8} (hc : c ≠ 0x2D) (cs : Str) (rest : List Str) :
    parseArgs lib p false false lv ((0x2D :: c :: cs) :: rest) =
      continueWith lib p rest (shortFlags lib p.flags rest (c :: cs) lv) := by
  rw [parseArgs_cons, if_neg (by simp [lit_dashes, hc]), if_neg (by simp),
    if_neg (by simp [lit_dashes, hc])]
  rfl

/-- The kinds of arguments. -/
theorem arg_cases (arg : Str) : arg.head? ≠ some 0x2D ∨ arg = lit "-" ∨ arg = lit "--" ∨
    (∃ name, name ≠ [] ∧ arg = lit "--" ++ name) ∨ ∃ c cs, c ≠ 0x2D ∧ arg = 0x2D :: c :: cs := by
  by_cases hplain : arg.head? = some 0x2D
  · right
    obtain ⟨tail, rfl⟩ := List.head?_eq_some_iff.mp hplain
    cases tail with
    | nil => exact .inl rfl
    | cons c cs =>
      by_cases hc : c = 0x2D
      · subst hc
        cases cs with
        | nil => exact .inr (.inl rfl)
        | cons d ds => exact .inr (.inr (.inl ⟨d :: ds, List.cons_ne_nil _ _, rfl⟩))
      · exact .inr (.inr (.inr ⟨c, cs, hc, rfl⟩))
  · exact .inl hplain

end turn

end Solidc.Flags
