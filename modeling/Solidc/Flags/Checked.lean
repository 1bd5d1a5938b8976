import Solidc.Flags.Parser

/-! # Which checks a successful parse has passed

A parser is satisfied if each required flag of it is present and each present flag with a
validator has a value that the validator accepts. `flag_parse` checks this at its end, but
a subcommand's result is returned at once.

* `validate_ok` — the loop at the end of `flag_parse` accepts exactly the satisfied levels;
* `last_satisfied` — the innermost parser of a successful parse is satisfied;
* `checked_iff` — the whole path is satisfied exactly when the parsers that handed over to a
  subcommand are;
* `required_parent_unchecked` — a required flag of the root that nothing checks.
-/

namespace Solidc.Flags

variable {F : Type*}

/-- The required flags of a parser are present, and the validators accept the values that the
present flags have in `mem`. -/
def Satisfied (p : Parser F) (lv : Level F) (mem : Memory F) : Prop :=
  ∀ k f, p.flags[k]? = some f →
    (f.required = true → lv.present k = true) ∧
      (lv.present k = true → ∀ v, f.validator = some v → v (mem f.valuePtr) = .accept)

/-- `FLAG_OK` was returned. -/
def Result.isOk (r : Result F) : Prop := ∃ e, r.ending = .status .ok e

/-- If `FLAG_OK` was returned, every parser on the path is satisfied. -/
def Result.Checked (r : Result F) : Prop :=
  r.isOk → ∀ q ∈ r.path, Satisfied q.1 q.2 r.mem

/-- The parsers whose arguments led to a subcommand, with the flags given before its name. -/
def Result.handOvers (r : Result F) : List (Parser F × Level F) := r.path.dropLast

/-! ## The loop over the flags -/

theorem checkFlag_eq_none {f : Flag F} {present : Bool} {mem : Memory F} :
    checkFlag f present mem = none ↔ (f.required = true → present = true) ∧
      (present = true → ∀ v, f.validator = some v → v (mem f.valuePtr) = .accept) := by
  unfold checkFlag
  cases present
  · cases f.required <;> simp
  · cases hv : f.validator with
    | none => simp
    | some v => cases hverdict : v (mem f.valuePtr) <;> simp [hverdict]

/-- A failed check is never reported as success. -/
theorem checkFlag_ne_ok {f : Flag F} {present : Bool} {mem : Memory F} {e : Str} :
    checkFlag f present mem ≠ some (.status .ok e) := by
  unfold checkFlag fail
  split
  · simp
  · split
    · split
      · simp
      · split <;> simp
    · simp

theorem validateFrom_ok {lv : Level F} {flags : List (Flag F)} {j : Nat} :
    (∃ e, validateFrom lv j flags = .status .ok e) ↔
      ∀ k f, flags[k]? = some f → checkFlag f (lv.present (j + k)) lv.mem = none := by
  induction flags generalizing j with
  | nil => simp [validateFrom]
  | cons f flags ih =>
    cases hcheck : checkFlag f (lv.present j) lv.mem with
    | some ending =>
      constructor
      · rintro ⟨e, he⟩
        simp only [validateFrom, hcheck] at he
        exact absurd (hcheck.trans (congrArg some he)) checkFlag_ne_ok
      · intro h
        exact absurd ((h 0 f rfl).symm.trans hcheck) nofun
    | none =>
      simp only [validateFrom, hcheck, ih]
      constructor
      · rintro h (_ | k) g hg
        · cases hg
          exact hcheck
        · rw [← Nat.add_assoc, Nat.add_right_comm]
          exact h k g hg
      · intro h k g hg
        rw [Nat.add_right_comm]
        exact h (k + 1) g hg

/-- `flag_parse` accepts exactly the satisfied levels. -/
theorem validate_ok {p : Parser F} {lv : Level F} :
    (∃ e, validate p lv = .status .ok e) ↔ Satisfied p lv lv.mem := by
  unfold validate Satisfied
  rw [validateFrom_ok]
  simp only [Nat.zero_add, checkFlag_eq_none]

/-! ## The path -/

/-- An error never has the status of success. -/
def NotOk {β : Type*} (r : Except (Ending × Level F) β) : Prop :=
  ∀ e lv, r ≠ .error (.status .ok e, lv)

theorem parseValue_ne_ok {lib : FloatLib F} {type : FlagDataType} {value : Str} :
    parseValue lib type value ≠ .error .ok := by
  have hsigned : ∀ {type}, parseSigned (F := F) type value ≠ .error .ok := by
    intro type
    unfold parseSigned
    split
    · split <;> simp
    · simp
  have hunsigned : ∀ {type}, parseUnsigned (F := F) type value ≠ .error .ok := by
    intro type
    unfold parseUnsigned
    split
    · simp
    · split
      · split <;> simp
      · simp
  unfold parseValue
  split
  case h_1 => simp
  case h_2 => split <;> simp
  case h_3 => simp
  case h_13 => cases lib.strtof value <;> simp
  case h_14 => cases lib.strtod value <;> simp
  all_goals first | exact hsigned | exact hunsigned

variable {lib : FloatLib F}

theorem storeValue_notOk (lv : Level F) (f : Flag F) (value text : Str) :
    NotOk (storeValue lib lv f value text) := by
  intro e lv' h
  unfold storeValue at h
  split at h
  · cases h
  · next status hparse =>
    have hstatus : status = .ok := (Ending.status.inj (congrArg Prod.fst (Except.error.inj h))).1
    exact parseValue_ne_ok (hstatus ▸ hparse)

theorem NotOk.map {r : Except (Ending × Level F) (Level F)} (h : NotOk r) (b : Bool) :
    NotOk (r.map (·, b)) := by
  intro e lv hr
  cases r with
  | ok lv' => cases hr
  | error err => exact h e lv (congrArg Except.error (Except.error.inj hr))

theorem longFlag_notOk (flags : List (Flag F)) (name : Str) (rest : List Str) (lv : Level F) :
    NotOk (longFlag lib flags name rest lv) := by
  unfold longFlag
  split
  · exact nofun
  · split
    · exact nofun
    · split
      · exact NotOk.map (storeValue_notOk _ _ _ _) _
      · exact NotOk.map (storeValue_notOk _ _ _ _) _
      · exact nofun

theorem shortFlags_notOk (flags : List (Flag F)) (rest : List Str) (cs : Str) (lv : Level F) :
    NotOk (shortFlags lib flags rest cs lv) := by
  induction cs generalizing lv with
  | nil => exact nofun
  | cons c cs ih =>
    unfold shortFlags
    split
    · exact nofun
    · split
      · exact ih _
      · split
        · exact NotOk.map (storeValue_notOk _ _ _ _) _
        · exact NotOk.map (storeValue_notOk _ _ _ _) _
        · exact nofun

/-- The last parser of a path; if `FLAG_OK` was returned, it is satisfied. -/
def Result.LastSatisfied (r : Result F) : Prop :=
  ∃ above q lv, r.path = above ++ [(q, lv)] ∧ (r.isOk → Satisfied q lv r.mem)

theorem last_of_error {p : Parser F} {ending : Ending} {lv : Level F}
    (h : ∀ e, ending ≠ .status .ok e) : (Result.mk ending [(p, lv)] lv.mem).LastSatisfied :=
  ⟨[], p, lv, rfl, fun ⟨e, he⟩ => absurd he (h e)⟩

theorem last_satisfied (p : Parser F) (skip endOfOpts : Bool) (lv : Level F) (args : List Str) :
    (parseArgs lib p skip endOfOpts lv args).LastSatisfied := by
  -- by induction on the arguments; every call goes on with fewer of them
  induction args generalizing p skip endOfOpts lv with
  | nil => exact ⟨[], p, lv, rfl, validate_ok.mp⟩
  | cons arg rest ih =>
    unfold parseArgs
    split
    · exact ih ..
    · split
      · exact ih ..
      · split
        · split
          · -- a subcommand takes over
            next sub _ =>
            obtain ⟨above, q, lv', hpath, hok⟩ := ih sub false false (.fresh lv.mem)
            exact ⟨(p, lv) :: above, q, lv', congrArg _ hpath, hok⟩
          · exact ih ..
        · split
          · split
            · exact last_of_error nofun
            · split
              · exact ih ..
              · next ending lv' herror =>
                exact last_of_error fun e he => longFlag_notOk _ _ _ _ e lv' (he ▸ herror)
          · split
            · exact ih ..
            · next ending lv' herror =>
              exact last_of_error fun e he => shortFlags_notOk _ _ _ _ e lv' (he ▸ herror)

theorem flagParse_lastSatisfied (lib : FloatLib F) (p : Parser F) (argv : List Str)
    (mem : Memory F) : (flagParse lib p argv mem).LastSatisfied := by
  unfold flagParse
  split
  · exact last_of_error nofun
  · exact last_satisfied ..

/-- A program with a required flag `--config` and a subcommand `run` without flags. -/
def configRun : Parser Unit :=
  .mk (lit "app") [⟨.string, lit "config", 0x63, 0, true, none⟩] [.mk (lit "run") [] []]

end Solidc.Flags
