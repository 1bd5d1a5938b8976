import Solidc.Flags.Checked
import Mathlib.Data.List.Basic
import Mathlib.Algebra.Ring.Nat

/-! # The pointers that `flag_add` returns

`flag_add` appends to an array of flags. When the array is full, it copies the flags to a new one
in the arena and goes on with that; the old array stays in the arena, and the pointers returned
before still point into it. What `flag_set_validator` writes there is never read again.

* `Sized` — which places the arrays have and which pointers there are, in every reachable state;
* `current_iff` — when a pointer still points into the array of the parser;
* `flags_of_current`, `flags_of_copied` — what becomes of a validator in the two cases;
* `parseArgs_erase` — validators do not change how the arguments are parsed;
* `validator_applied_iff` — when `flag_parse` applies a validator.
-/

namespace Solidc.Flags

variable {F : Type*}

/-! ## The functions -/

/-- `INITIAL_CAPACITY`. -/
def initialCapacity : Nat := 64

/-- A `Flag*`: the array it points into, by the number of arrays before it, and the place. -/
structure Handle where
  array : Nat
  place : Nat

/-- The flags of a parser: the arrays that were copied, oldest first, the array in use, its
capacity, and what the calls of `flag_add` returned. -/
structure Registry (F : Type*) where
  copied : List (List (Flag F))
  flags : List (Flag F)
  capacity : Nat
  handles : List (Option Handle)

/-- A parser without flags. -/
def Registry.empty : Registry F := ⟨[], [], 0, []⟩

/-- The flags are copied to a larger array. -/
def Registry.grow (reg : Registry F) : Registry F :=
  { reg with
    copied := reg.copied ++ [reg.flags]
    capacity := if reg.capacity = 0 then initialCapacity else reg.capacity * 2 }

/-- The next place of the array is filled. -/
def Registry.put (reg : Registry F) (f : Flag F) : Registry F :=
  { reg with
    flags := reg.flags ++ [{ f with validator := none }]
    handles := reg.handles ++ [some ⟨reg.copied.length, reg.flags.length⟩] }

/-- `flag_add` with the arguments in `f`; `arenaOk` tells whether the arena has room for an array.
The size of one in bytes fits `size_t` as long as it fits the memory. -/
def flagAdd (reg : Registry F) (f : Flag F) (arenaOk : Bool) : Registry F :=
  if reg.flags.length ≥ reg.capacity then
    if arenaOk then reg.grow.put f else { reg with handles := reg.handles ++ [none] }
  else reg.put f

/-- `flag->validator = validator` in an array. -/
def writeValidator (validator : Option (Value F → Verdict)) (flags : List (Flag F)) (place : Nat) :
    List (Flag F) :=
  flags.modify place fun f => { f with validator := validator }

/-- `flag_set_validator`. -/
def flagSetValidator (reg : Registry F) (flag : Option Handle)
    (validator : Option (Value F → Verdict)) : Registry F :=
  match flag with
  | none => reg
  | some h =>
    if h.array = reg.copied.length then
      { reg with flags := writeValidator validator reg.flags h.place }
    else
      { reg with
        copied := reg.copied.modify h.array fun flags => writeValidator validator flags h.place }

/-- A call before `flag_parse`; a pointer is named by the call of `flag_add` that returned it. -/
inductive RegistryCall (F : Type*) where
  | add (f : Flag F) (arenaOk : Bool)
  | setValidator (k : Nat) (validator : Option (Value F → Verdict))

def RegistryCall.run (reg : Registry F) : RegistryCall F → Registry F
  | add f arenaOk => flagAdd reg f arenaOk
  | setValidator k validator => flagSetValidator reg reg.handles[k]?.join validator

def runCalls (reg : Registry F) (calls : List (RegistryCall F)) : Registry F :=
  calls.foldl RegistryCall.run reg

/-- The parser that `flag_parse` is given. -/
def Registry.parser (reg : Registry F) (name : Str) (subcommands : List (Parser F)) : Parser F :=
  .mk name reg.flags subcommands

/-- A validator is applied to the flag at a place: it has accepted the value whenever `flag_parse`
succeeds and the flag is present. -/
def Applies (r : Result F) (p : Parser F) (place : Nat) (validator : Value F → Verdict) : Prop :=
  r.isOk → ∀ lv below f, r.path = (p, lv) :: below → p.flags[place]? = some f →
    lv.present place = true → validator (r.mem f.valuePtr) = .accept

/-! ## The arrays -/

/-- The capacity of the array behind `g` others. -/
def capacityOf : Nat → Nat
  | 0 => 0
  | g + 1 => initialCapacity * 2 ^ g

theorem capacityOf_mono {a g : Nat} (h : a ≤ g) : capacityOf a ≤ capacityOf g := by
  cases a with
  | zero => exact Nat.zero_le _
  | succ a =>
    obtain ⟨g, rfl⟩ := Nat.exists_eq_succ_of_ne_zero (show g ≠ 0 by omega)
    exact Nat.mul_le_mul_left _ (Nat.pow_le_pow_right (by decide) (Nat.le_of_succ_le_succ h))

/-- A pointer to a flag that is registered. -/
structure Registered (reg : Registry F) (h : Handle) : Prop where
  pos : 0 < h.array
  array_le : h.array ≤ reg.copied.length
  le_place : capacityOf (h.array - 1) ≤ h.place
  place_lt : h.place < capacityOf h.array
  inTable : h.place < reg.flags.length

/-- Every array but the first was full when it was copied. -/
structure Sized (reg : Registry F) : Prop where
  capacity : reg.capacity = capacityOf reg.copied.length
  fits : reg.flags.length ≤ reg.capacity
  filled : 0 < reg.copied.length → capacityOf (reg.copied.length - 1) < reg.flags.length
  registered : ∀ h, some h ∈ reg.handles → Registered reg h
  distinct : ∀ (k k' : Nat) (h h' : Handle), reg.handles[k]? = some (some h) →
    reg.handles[k']? = some (some h') → h.place = h'.place → k = k'

variable {reg reg' : Registry F} {f : Flag F} {h : Handle} {k n : Nat}

theorem Sized.empty : Sized (Registry.empty : Registry F) :=
  ⟨rfl, Nat.le_refl _, nofun, nofun, nofun⟩

theorem getElem?_snoc {α : Type*} {l : List α} {x y : α} {k : Nat} (h : (l ++ [x])[k]? = some y) :
    l[k]? = some y ∨ k = l.length ∧ x = y := by
  rw [List.getElem?_append] at h
  split at h
  · exact .inl h
  · rcases Nat.eq_zero_or_pos (k - l.length) with hzero | hpos
    · rw [hzero, List.getElem?_cons_zero, Option.some.injEq] at h
      exact .inr ⟨by omega, h⟩
    · rw [List.getElem?_eq_none hpos] at h
      cases h

/-- There is room for a flag in an array that was full when it was made. -/
structure HasRoom (reg : Registry F) : Prop where
  capacity : reg.capacity = capacityOf reg.copied.length
  room : reg.flags.length < reg.capacity
  begun : capacityOf (reg.copied.length - 1) ≤ reg.flags.length
  registered : ∀ h, some h ∈ reg.handles → Registered reg h
  distinct : ∀ (k k' : Nat) (h h' : Handle), reg.handles[k]? = some (some h) →
    reg.handles[k']? = some (some h') → h.place = h'.place → k = k'

theorem Sized.hasRoom (hs : Sized reg) (hroom : ¬ reg.flags.length ≥ reg.capacity) :
    HasRoom reg := by
  refine ⟨hs.capacity, Nat.lt_of_not_le hroom, ?_, hs.registered, hs.distinct⟩
  rcases Nat.eq_zero_or_pos reg.copied.length with hzero | hpos
  · rw [hzero]
    exact Nat.zero_le _
  · exact Nat.le_of_lt (hs.filled hpos)

theorem Sized.hasRoom_grow (hs : Sized reg) (hfull : reg.flags.length ≥ reg.capacity) :
    HasRoom reg.grow := by
  have hlen : reg.grow.copied.length = reg.copied.length + 1 := by
    simp [Registry.grow]
  have hcap : reg.grow.capacity = capacityOf (reg.copied.length + 1) := by
    rw [Registry.grow, hs.capacity]
    cases reg.copied.length with
    | zero => rfl
    | succ g =>
      have hpos : capacityOf (g + 1) ≠ 0 := Nat.mul_ne_zero (by decide) (by simp)
      rw [if_neg hpos, capacityOf, capacityOf, Nat.pow_succ, Nat.mul_assoc]
  have hfits := hs.fits
  refine ⟨by rw [hcap, hlen], ?_, ?_, fun h hh => ?_, hs.distinct⟩
  · have hlt : capacityOf reg.copied.length < capacityOf (reg.copied.length + 1) := by
      cases reg.copied.length with
      | zero => decide
      | succ g => exact Nat.mul_lt_mul_of_pos_left (Nat.pow_lt_pow_succ (by decide)) (by decide)
    have hcapacity := hs.capacity
    rw [hcap]
    show reg.flags.length < _
    omega
  · rw [hlen, Nat.add_sub_cancel, ← hs.capacity]
    exact hfull
  · obtain ⟨hpos, hle, hbegin, hlt, hin⟩ := hs.registered h hh
    exact ⟨hpos, by omega, hbegin, hlt, hin⟩

theorem HasRoom.put (hr : HasRoom reg) (f : Flag F) : Sized (reg.put f) := by
  have hlen : (reg.put f).flags.length = reg.flags.length + 1 := by simp [Registry.put]
  have hroom := hr.room
  have hcap := hr.capacity
  have hpos : 0 < reg.copied.length := by
    rw [Nat.pos_iff_ne_zero]
    intro hzero
    rw [hzero, capacityOf] at hcap
    omega
  have hlast : ∀ k h, (reg.put f).handles[k]? = some (some h) →
      reg.handles[k]? = some (some h) ∨
        k = reg.handles.length ∧ h = ⟨reg.copied.length, reg.flags.length⟩ := by
    intro k h hk
    rcases getElem?_snoc hk with hk | ⟨hlast, heq⟩
    · exact .inl hk
    · exact .inr ⟨hlast, (Option.some.inj heq).symm⟩
  have hold : ∀ k h, reg.handles[k]? = some (some h) → h.place < reg.flags.length ∧
      k < reg.handles.length := fun k h hk =>
    ⟨(hr.registered h (List.mem_of_getElem? hk)).inTable, (List.getElem?_eq_some_iff.mp hk).1⟩
  have hfits : (reg.put f).flags.length ≤ reg.capacity := by omega
  refine ⟨hcap, hfits, fun _ => ?_, fun h hh => ?_, fun k k' h h' hk hk' heq => ?_⟩
  · have hbegun := hr.begun
    show capacityOf (reg.copied.length - 1) < _
    omega
  · obtain ⟨k, hk⟩ := List.mem_iff_getElem?.mp hh
    rcases hlast k h hk with hk | ⟨-, rfl⟩
    · obtain ⟨hpos, hle, hbegin, hlt, hin⟩ := hr.registered h (List.mem_of_getElem? hk)
      exact ⟨hpos, hle, hbegin, hlt, by omega⟩
    · exact ⟨hpos, Nat.le_refl _, hr.begun, hcap ▸ hroom, by simp [hlen]⟩
  · -- the new place is behind all others
    rcases hlast k h hk with hk | ⟨rfl, rfl⟩ <;> rcases hlast k' h' hk' with hk' | ⟨rfl, rfl⟩
    · exact hr.distinct k k' h h' hk hk' heq
    · have hlt := (hold k h hk).1
      simp only at heq
      omega
    · have hlt := (hold k' h' hk').1
      simp only at heq
      omega
    · rfl

/-- The pointer that is not returned changes nothing. -/
theorem Sized.addNull (hs : Sized reg) :
    Sized { reg with handles := reg.handles ++ [none] } := by
  have hold : ∀ (k : Nat) (h : Handle), (reg.handles ++ [none])[k]? = some (some h) →
      reg.handles[k]? = some (some h) := by
    intro k h hk
    rcases getElem?_snoc hk with hk | ⟨-, heq⟩
    · exact hk
    · cases heq
  refine ⟨hs.capacity, hs.fits, hs.filled, fun h hh => ?_, fun k k' h h' hk hk' =>
    hs.distinct k k' h h' (hold k h hk) (hold k' h' hk')⟩
  obtain ⟨k, hk⟩ := List.mem_iff_getElem?.mp hh
  obtain ⟨hpos, hle, hbegin, hlt, hin⟩ := hs.registered h (List.mem_of_getElem? (hold k h hk))
  exact ⟨hpos, hle, hbegin, hlt, hin⟩

/-- The arrays and the pointers, without what is in the arrays. -/
structure SameShape (reg reg' : Registry F) : Prop where
  flags : reg'.flags.length = reg.flags.length
  copied : reg'.copied.length = reg.copied.length
  capacity : reg'.capacity = reg.capacity
  handles : reg'.handles = reg.handles

theorem Sized.of_sameShape (hs : Sized reg) (hsame : SameShape reg reg') : Sized reg' := by
  obtain ⟨hflags, hcopied, hcapacity, hhandles⟩ := hsame
  refine ⟨by rw [hcapacity, hcopied, hs.capacity], by rw [hflags, hcapacity]; exact hs.fits, ?_,
    fun h hh => ?_, hhandles ▸ hs.distinct⟩
  · rw [hcopied, hflags]
    exact hs.filled
  · obtain ⟨hpos, hle, hbegin, hlt, hin⟩ := hs.registered h (hhandles ▸ hh)
    exact ⟨hpos, by omega, hbegin, hlt, by omega⟩

theorem sameShape_setValidator (reg : Registry F) (flag : Option Handle)
    (validator : Option (Value F → Verdict)) :
    SameShape reg (flagSetValidator reg flag validator) := by
  cases flag with
  | none => exact ⟨rfl, rfl, rfl, rfl⟩
  | some h =>
    rw [flagSetValidator]
    split
    · exact ⟨List.length_modify .., rfl, rfl, rfl⟩
    · exact ⟨rfl, List.length_modify .., rfl, rfl⟩

/-- Every call keeps the invariant. -/
theorem Sized.run (hs : Sized reg) (call : RegistryCall F) : Sized (call.run reg) := by
  cases call with
  | add f arenaOk =>
    rw [RegistryCall.run, flagAdd]
    by_cases hfull : reg.flags.length ≥ reg.capacity
    · rw [if_pos hfull]
      cases arenaOk with
      | true => exact (hs.hasRoom_grow hfull).put f
      | false => exact hs.addNull
    · rw [if_neg hfull]
      exact (hs.hasRoom hfull).put f
  | setValidator k validator => exact hs.of_sameShape (sameShape_setValidator ..)

theorem Sized.runCalls (hs : Sized reg) (calls : List (RegistryCall F)) :
    Sized (runCalls reg calls) := by
  induction calls generalizing reg with
  | nil => exact hs
  | cons call calls ih => exact ih (hs.run call)

/-- A pointer is into the array in use when no array was filled since it was returned. -/
theorem current_iff (hs : Sized reg) (hh : some h ∈ reg.handles) :
    h.array = reg.copied.length ↔
      ∀ j, h.place < initialCapacity * 2 ^ j → reg.flags.length ≤ initialCapacity * 2 ^ j := by
  obtain ⟨hpos, hle, hbegin, hlt, -⟩ := hs.registered h hh
  obtain ⟨a, ha⟩ := Nat.exists_eq_succ_of_ne_zero (Nat.ne_of_gt hpos)
  have hfits := hs.fits
  have hcap := hs.capacity
  constructor
  · intro hcur j hj
    rw [hcap, ← hcur, ha] at hfits
    rw [ha, Nat.succ_sub_one] at hbegin
    -- the array of the pointer is not larger than one with the place in it
    have haj : a ≤ j := by
      by_contra hja
      have hmono := capacityOf_mono (show j + 1 ≤ a by omega)
      rw [capacityOf] at hmono
      omega
    exact Nat.le_trans hfits (Nat.mul_le_mul_left _ (Nat.pow_le_pow_right (by decide) haj))
  · intro hall
    by_contra hne
    rw [ha, capacityOf] at hlt
    have hflags := hall a hlt
    have hfilled := hs.filled (by omega)
    have hmono := capacityOf_mono (show a + 1 ≤ reg.copied.length - 1 by omega)
    rw [capacityOf] at hmono
    omega

/-! ## What becomes of a validator -/

/-- The flag of a pointer has a validator in the array in use. -/
structure Carries (reg : Registry F) (k : Nat) (h : Handle) (v : Value F → Verdict) : Prop where
  handle : reg.handles[k]? = some (some h)
  validator : ∃ f, reg.flags[h.place]? = some f ∧ f.validator = some v

variable {v : Value F → Verdict} {calls : List (RegistryCall F)}

theorem Carries.put (hc : Carries reg k h v) (f : Flag F) : Carries (reg.put f) k h v := by
  obtain ⟨hk, g, hg, hv⟩ := hc
  refine ⟨?_, g, ?_, hv⟩
  · rw [Registry.put, List.getElem?_append_left (List.getElem?_eq_some_iff.mp hk).1, hk]
  · rw [Registry.put, List.getElem?_append_left (List.getElem?_eq_some_iff.mp hg).1, hg]

/-- A call with another pointer leaves the validator where it is, and a copy takes it along. -/
theorem Carries.run (hs : Sized reg) (hc : Carries reg k h v) {call : RegistryCall F}
    (hother : ∀ w, call ≠ .setValidator k w) : Carries (call.run reg) k h v := by
  cases call with
  | add f arenaOk =>
    have hgrown : Carries reg.grow k h v := ⟨hc.handle, hc.validator⟩
    rw [RegistryCall.run, flagAdd]
    split
    · cases arenaOk with
      | true => exact hgrown.put f
      | false =>
        refine ⟨?_, hc.validator⟩
        rw [if_neg Bool.false_ne_true,
          List.getElem?_append_left (List.getElem?_eq_some_iff.mp hc.handle).1, hc.handle]
    · exact hc.put f
  | setValidator k' w =>
    have hne : k' ≠ k := fun heq => hother w (heq ▸ rfl)
    rw [RegistryCall.run]
    cases hk' : reg.handles[k']?.join with
    | none => exact hc
    | some h' =>
      rw [flagSetValidator]
      have hplace : h'.place ≠ h.place := fun heq =>
        hne (hs.distinct k' k h' h (Option.join_eq_some_iff.mp hk') hc.handle heq)
      split
      · obtain ⟨g, hg, hv⟩ := hc.validator
        exact ⟨hc.handle, g, (List.getElem?_modify_ne _ _ hplace).trans hg, hv⟩
      · exact ⟨hc.handle, hc.validator⟩

theorem Carries.runCalls (hs : Sized reg) (hc : Carries reg k h v)
    (hother : ∀ w, .setValidator k w ∉ calls) : Carries (runCalls reg calls) k h v := by
  induction calls generalizing reg with
  | nil => exact hc
  | cons call calls ih =>
    refine ih (hs.run call) (hc.run hs fun w heq => hother w (heq ▸ List.mem_cons_self)) ?_
    exact fun w hw => hother w (List.mem_cons_of_mem call hw)

/-- Through a pointer into the array in use, the flag gets the validator. -/
theorem carries_of_current (hs : Sized reg) (hk : reg.handles[k]? = some (some h))
    (hcur : h.array = reg.copied.length) :
    Carries ((RegistryCall.setValidator k (some v)).run reg) k h v := by
  have hin := (hs.registered h (List.mem_of_getElem? hk)).inTable
  have hjoin : reg.handles[k]?.join = some h := Option.join_eq_some_iff.mpr hk
  rw [RegistryCall.run, hjoin, flagSetValidator, if_pos hcur]
  refine ⟨hk, { reg.flags[h.place] with validator := some v }, ?_, rfl⟩
  rw [writeValidator, List.getElem?_modify_eq, List.getElem?_eq_getElem hin]
  rfl

/-- A flag as the argument loop sees it. -/
def Flag.erase (f : Flag F) : Flag F := { f with validator := none }

/-- The same arrays and pointers, and the same flags in use as far as `g` shows them. -/
structure Alike {β : Type*} (g : Flag F → β) (reg reg' : Registry F) : Prop
    extends SameShape reg reg' where
  shown : reg'.flags.map g = reg.flags.map g

section Alike

variable {β : Type*} {g : Flag F → β}

theorem Alike.put (ha : Alike g reg reg') (f : Flag F) : Alike g (reg.put f) (reg'.put f) := by
  obtain ⟨⟨hflags, hcopied, hcapacity, hhandles⟩, hshown⟩ := ha
  refine ⟨⟨?_, hcopied, hcapacity, ?_⟩, ?_⟩
  · simp only [Registry.put, List.length_append, hflags]
  · simp only [Registry.put, hhandles, hcopied, hflags]
  · simp only [Registry.put, List.map_append, hshown]

theorem Alike.grow (ha : Alike g reg reg') : Alike g reg.grow reg'.grow := by
  obtain ⟨⟨hflags, hcopied, hcapacity, hhandles⟩, hshown⟩ := ha
  refine ⟨⟨hflags, ?_, ?_, hhandles⟩, hshown⟩
  · simp only [Registry.grow, List.length_append, List.length_singleton, hcopied]
  · simp only [Registry.grow, hcapacity]

theorem map_writeValidator {l l' : List (Flag F)} (w : Option (Value F → Verdict))
    (hg : ∀ f f' : Flag F, g f = g f' → g { f with validator := w } = g { f' with validator := w })
    (hmap : l'.map g = l.map g) (place : Nat) :
    (writeValidator w l' place).map g = (writeValidator w l place).map g := by
  apply List.ext_getElem?
  intro j
  have hj : l'[j]?.map g = l[j]?.map g := by rw [← List.getElem?_map, hmap, List.getElem?_map]
  simp only [writeValidator, List.getElem?_map, List.getElem?_modify]
  split
  · cases hl : l[j]? <;> cases hl' : l'[j]? <;> simp_all
    exact hg _ _ hj
  · simpa using hj

/-- What is in the arrays that were copied, and what `g` hides, stays without effect. -/
theorem Alike.run (ha : Alike g reg reg')
    (hg : ∀ w (f f' : Flag F), g f = g f' →
      g { f with validator := w } = g { f' with validator := w }) (call : RegistryCall F) :
    Alike g (call.run reg) (call.run reg') := by
  cases call with
  | add f arenaOk =>
    simp only [RegistryCall.run, flagAdd, ha.flags, ha.capacity]
    split
    · cases arenaOk with
      | true => exact ha.grow.put f
      | false => exact ⟨⟨ha.flags, ha.copied, rfl, congrArg (· ++ [none]) ha.handles⟩, ha.shown⟩
    · exact ha.put f
  | setValidator k w =>
    simp only [RegistryCall.run, ha.handles]
    cases reg.handles[k]?.join with
    | none => exact ha
    | some h =>
      simp only [flagSetValidator, ha.copied]
      split
      · refine ⟨⟨?_, ha.copied, ha.capacity, ha.handles⟩, map_writeValidator w (hg w) ha.shown _⟩
        simp only [writeValidator, List.length_modify, ha.flags]
      · refine ⟨⟨ha.flags, ?_, ha.capacity, ha.handles⟩, ha.shown⟩
        simp only [List.length_modify, ha.copied]

theorem Alike.runCalls (ha : Alike g reg reg')
    (hg : ∀ w (f f' : Flag F), g f = g f' →
      g { f with validator := w } = g { f' with validator := w }) (calls : List (RegistryCall F)) :
    Alike g (runCalls reg calls) (runCalls reg' calls) := by
  induction calls generalizing reg reg' with
  | nil => exact ha
  | cons call calls ih => exact ih (ha.run hg call)

end Alike

/-- A validator is hidden from the argument loop. -/
theorem alike_setValidator (reg : Registry F) (k : Nat) (w : Option (Value F → Verdict)) :
    Alike Flag.erase reg ((RegistryCall.setValidator k w).run reg) := by
  refine ⟨sameShape_setValidator .., ?_⟩
  rw [RegistryCall.run]
  cases reg.handles[k]?.join with
  | none => rfl
  | some h =>
    rw [flagSetValidator]
    split
    · apply List.ext_getElem?
      intro j
      simp only [writeValidator, List.getElem?_map, List.getElem?_modify]
      split <;> cases reg.flags[j]? <;> rfl
    · rfl

/-! ## Parsing does not look at validators -/

variable {lib : FloatLib F} {flags flags' : List (Flag F)} {lv : Level F} {rest args : List Str}

/-- A lookup that does not look at the validators finds the same place, with the same flag but for
its validator. -/
theorem find_erase (hsame : flags.map Flag.erase = flags'.map Flag.erase) (q : Flag F → Bool)
    (hq : ∀ f : Flag F, q f = q f.erase) :
    (flags.zipIdx.find? fun fk => q fk.1).map (fun fk => (fk.1.erase, fk.2)) =
      (flags'.zipIdx.find? fun fk => q fk.1).map fun fk => (fk.1.erase, fk.2) := by
  have herase : ∀ l : List (Flag F),
      (l.zipIdx.find? fun fk => q fk.1).map (fun fk => (fk.1.erase, fk.2)) =
        (l.map Flag.erase).zipIdx.find? fun fk => q fk.1 := by
    intro l
    rw [List.zipIdx_map, List.find?_map]
    simp only [Function.comp_def, Prod.map_fst, ← hq]
    rfl
  rw [herase, herase, hsame]

/-- The two results of a lookup. -/
theorem find_cases (hsame : flags.map Flag.erase = flags'.map Flag.erase) (q : Flag F → Bool)
    (hq : ∀ f : Flag F, q f = q f.erase) :
    ((flags.zipIdx.find? fun fk => q fk.1) = none ∧
        (flags'.zipIdx.find? fun fk => q fk.1) = none) ∨
      ∃ f f' k, (flags.zipIdx.find? fun fk => q fk.1) = some (f, k) ∧
        (flags'.zipIdx.find? fun fk => q fk.1) = some (f', k) ∧ f.erase = f'.erase := by
  have hfind := find_erase hsame q hq
  cases hf : flags.zipIdx.find? fun fk => q fk.1 with
  | none =>
    rw [hf, Option.map_none, eq_comm, Option.map_eq_none_iff] at hfind
    exact .inl ⟨rfl, hfind⟩
  | some fk =>
    rw [hf, Option.map_some, eq_comm, Option.map_eq_some_iff] at hfind
    obtain ⟨fk', hf', heq⟩ := hfind
    rw [Prod.mk.injEq] at heq
    exact .inr ⟨fk.1, fk'.1, fk.2, rfl, by rw [hf', ← heq.2], heq.1.symm⟩

/-- Flags that are the same but for their validators. -/
theorem eq_of_erase {f f' : Flag F} (h : f.erase = f'.erase) :
    f' = { f with validator := f'.validator } := by
  obtain ⟨type, name, shortName, valuePtr, required, validator⟩ := f
  obtain ⟨type', name', shortName', valuePtr', required', validator'⟩ := f'
  simp only [Flag.erase, Flag.mk.injEq, and_true] at h
  obtain ⟨rfl, rfl, rfl, rfl, rfl⟩ := h
  rfl

theorem longFlag_erase (hsame : flags.map Flag.erase = flags'.map Flag.erase) (name : Str)
    (rest : List Str) (lv : Level F) :
    longFlag lib flags name rest lv = longFlag lib flags' name rest lv := by
  rcases find_cases hsame (fun f => f.name == (splitLong name).1) (fun _ => rfl) with
    ⟨hf, hf'⟩ | ⟨f, f', k, hf, hf', heq⟩
  · rw [longFlag, longFlag, findFlagLong, findFlagLong, hf, hf']
  · rw [longFlag, longFlag, findFlagLong, findFlagLong, hf, hf', eq_of_erase heq]
    rfl

theorem shortFlags_erase (hsame : flags.map Flag.erase = flags'.map Flag.erase)
    (rest : List Str) (cs : Str) (lv : Level F) :
    shortFlags lib flags rest cs lv = shortFlags lib flags' rest cs lv := by
  induction cs generalizing lv with
  | nil => rfl
  | cons c cs ih =>
    rw [shortFlags, shortFlags, findFlagShort, findFlagShort]
    by_cases hc : c = 0
    · rw [if_pos hc, if_pos hc]
    · rw [if_neg hc, if_neg hc]
      rcases find_cases hsame (fun f => f.shortName == c) (fun _ => rfl) with
        ⟨hf, hf'⟩ | ⟨f, f', k, hf, hf', heq⟩
      · rw [hf, hf']
      · rw [hf, hf', eq_of_erase heq]
        simp only [ih]
        rfl

/-- Two runs of `flag_parse` over the same arguments: the same levels, and the same end unless
they come to the validation of the first parser. -/
structure SameRun (p p' : Parser F) (r r' : Result F) : Prop where
  path : ∃ lv below, r.path = (p, lv) :: below ∧ r'.path = (p', lv) :: below ∧
    (below ≠ [] → r'.ending = r.ending)
  mem : r'.mem = r.mem

theorem parseArgs_erase {p p' : Parser F} (hsub : p'.subcommands = p.subcommands)
    (hsame : p.flags.map Flag.erase = p'.flags.map Flag.erase) (skip endOfOpts : Bool)
    (lv : Level F) (args : List Str) :
    SameRun p p' (parseArgs lib p skip endOfOpts lv args)
      (parseArgs lib p' skip endOfOpts lv args) := by
  have hfind : ∀ arg, findSubcommand p' arg = findSubcommand p arg := fun arg => by
    rw [findSubcommand, findSubcommand, hsub]
  have hstop : ∀ (e : Ending) (lv : Level F),
      SameRun p p' ⟨e, [(p, lv)], lv.mem⟩ ⟨e, [(p', lv)], lv.mem⟩ := fun e lv =>
    ⟨⟨lv, [], rfl, rfl, nofun⟩, rfl⟩
  induction args generalizing skip endOfOpts lv with
  | nil => exact ⟨⟨lv, [], rfl, rfl, nofun⟩, rfl⟩
  | cons arg rest ih =>
    unfold parseArgs
    rw [hfind]
    split
    · exact ih ..
    · split
      · exact ih ..
      · split
        · split
          · -- the subcommand is the same
            next sub _ => exact ⟨⟨lv, _, rfl, rfl, fun _ => rfl⟩, rfl⟩
          · exact ih ..
        · split
          · split
            · exact hstop ..
            · rw [← longFlag_erase hsame]
              split
              · exact ih ..
              · exact hstop ..
          · rw [← shortFlags_erase hsame]
            split
            · exact ih ..
            · exact hstop ..

/-! ## Runs -/

/-- The calls before `flag_parse`: a validator is installed through the pointer that the `k`-th call
of `flag_add` returned. -/
def installing (before after : List (RegistryCall F)) (k : Nat) (v : Value F → Verdict) :
    Registry F :=
  runCalls .empty (before ++ .setValidator k (some v) :: after)

variable {before after : List (RegistryCall F)}

theorem installing_eq (before after : List (RegistryCall F)) (k : Nat) (v : Value F → Verdict) :
    installing before after k v =
      runCalls ((RegistryCall.setValidator k (some v)).run (runCalls .empty before)) after := by
  rw [installing, runCalls, List.foldl_append]
  rfl

/-- Through a pointer into an array that was copied, no validator reaches the parser. -/
theorem installing_copied (hk : (runCalls .empty before).handles[k]? = some (some h))
    (hold : h.array ≠ (runCalls (.empty : Registry F) before).copied.length)
    (after : List (RegistryCall F)) (v w : Value F → Verdict) :
    (installing before after k v).flags = (installing before after k w).flags := by
  have hset : ∀ u : Value F → Verdict, Alike id (runCalls .empty before)
      ((RegistryCall.setValidator k (some u)).run (runCalls .empty before)) := by
    intro u
    rw [RegistryCall.run, Option.join_eq_some_iff.mpr hk, flagSetValidator, if_neg hold]
    exact ⟨⟨rfl, List.length_modify .., rfl, rfl⟩, rfl⟩
  have hflags : ∀ u : Value F → Verdict,
      (installing before after k u).flags = (runCalls (runCalls .empty before) after).flags := by
    intro u
    rw [installing_eq]
    have hshown := ((hset u).runCalls (fun w f f' hf => by rw [id_eq, id_eq] at hf; rw [hf]) after).shown
    rwa [List.map_id, List.map_id] at hshown
  rw [hflags v, hflags w]

/-- Another validator leaves the flags as the argument loop sees them. -/
theorem installing_erase (before after : List (RegistryCall F)) (k : Nat)
    (v w : Value F → Verdict) :
    (installing before after k v).flags.map Flag.erase =
      (installing before after k w).flags.map Flag.erase := by
  have hflags : ∀ u : Value F → Verdict, (installing before after k u).flags.map Flag.erase =
      (runCalls (runCalls .empty before) after).flags.map Flag.erase := by
    intro u
    rw [installing_eq]
    exact ((alike_setValidator _ _ _).runCalls (fun _ _ _ hf => hf) after).shown
  rw [hflags v, hflags w]

/-- Through a pointer into the array in use, the flag of the parser gets the validator. -/
theorem installing_current (hk : (runCalls .empty before).handles[k]? = some (some h))
    (hcur : h.array = (runCalls (.empty : Registry F) before).copied.length)
    (hlast : ∀ w, .setValidator k w ∉ after) (v : Value F → Verdict) :
    ∃ f, (installing before after k v).flags[h.place]? = some f ∧ f.validator = some v := by
  have hs := Sized.empty.runCalls (F := F) before
  rw [installing_eq]
  exact ((carries_of_current hs hk hcur).runCalls (hs.run _) hlast).validator

/-- What a call of `flag_add` returned stays what it is. -/
theorem handles_run (hk : reg.handles[k]? = some (some h)) (call : RegistryCall F) :
    (call.run reg).handles[k]? = some (some h) := by
  have hin := (List.getElem?_eq_some_iff.mp hk).1
  cases call with
  | add f arenaOk =>
    rw [RegistryCall.run, flagAdd]
    split
    · cases arenaOk
      · exact (List.getElem?_append_left hin).trans hk
      · exact (List.getElem?_append_left hin).trans hk
    · exact (List.getElem?_append_left hin).trans hk
  | setValidator k w => rwa [RegistryCall.run, (sameShape_setValidator ..).handles]

theorem handles_runCalls (hk : reg.handles[k]? = some (some h)) (calls : List (RegistryCall F)) :
    (runCalls reg calls).handles[k]? = some (some h) := by
  induction calls generalizing reg with
  | nil => exact hk
  | cons call calls ih => exact ih (handles_run hk call)

/-- The flag of a pointer is in the parser. -/
theorem installing_flag (hk : (runCalls .empty before).handles[k]? = some (some h))
    (after : List (RegistryCall F)) (v : Value F → Verdict) :
    ∃ f, (installing before after k v).flags[h.place]? = some f := by
  have hs := ((Sized.empty.runCalls (F := F) before).run (.setValidator k (some v))).runCalls after
  rw [← installing_eq] at hs
  have hfinal : (installing before after k v).handles[k]? = some (some h) := by
    rw [installing_eq]
    exact handles_runCalls (handles_run hk _) after
  have hin := (hs.registered h (List.mem_of_getElem? hfinal)).inTable
  exact ⟨_, List.getElem?_eq_getElem hin⟩

theorem flagParse_erase {p p' : Parser F} (hsub : p'.subcommands = p.subcommands)
    (hsame : p.flags.map Flag.erase = p'.flags.map Flag.erase) (argv : List Str)
    (mem : Memory F) : SameRun p p' (flagParse lib p argv mem) (flagParse lib p' argv mem) := by
  cases argv with
  | nil => exact ⟨⟨.fresh mem, [], rfl, rfl, nofun⟩, rfl⟩
  | cons _ args => exact parseArgs_erase hsub hsame ..

section run

variable (lib : FloatLib F) (before after : List (RegistryCall F)) (k : Nat) (name : Str)
  (subcommands : List (Parser F)) (argv : List Str) (mem : Memory F)

/-- The parser in which the validator was installed, as `flag_parse` finds it. -/
def parserWith (v : Value F → Verdict) : Parser F :=
  (installing before after k v).parser name subcommands

/-- `flag_parse` with the validator. -/
def runWith (v : Value F → Verdict) : Result F :=
  flagParse lib (parserWith before after k name subcommands v) argv mem

/-- A validator that is installed through a pointer that `flag_add` returned, and not replaced
through it, is applied to the flag when no array was filled in between, and `flag_parse` does not
hand over to a subcommand. -/
theorem validator_applied_iff {lv : Level F} {below : List (Parser F × Level F)}
    (hk : (runCalls .empty before).handles[k]? = some (some h))
    (hlast : ∀ w, .setValidator k w ∉ after)
    (hok : (runWith lib before after k name subcommands argv mem fun _ => .accept).isOk)
    (hpath : (runWith lib before after k name subcommands argv mem fun _ => .accept).path =
      (parserWith before after k name subcommands fun _ => .accept, lv) :: below)
    (hpresent : lv.present h.place = true) :
    (∀ v, Applies (runWith lib before after k name subcommands argv mem v)
        (parserWith before after k name subcommands v) h.place v) ↔
      (∀ j, h.place < initialCapacity * 2 ^ j →
        (runCalls (.empty : Registry F) before).flags.length ≤ initialCapacity * 2 ^ j) ∧
      below = [] := by
  have hs := Sized.empty.runCalls (F := F) before
  have hsame : ∀ v, SameRun (parserWith before after k name subcommands fun _ => .accept)
      (parserWith before after k name subcommands v)
      (runWith lib before after k name subcommands argv mem fun _ => .accept)
      (runWith lib before after k name subcommands argv mem v) := by
    intro v
    apply flagParse_erase
    · rfl
    · exact installing_erase before after k _ v
  rw [← current_iff hs (List.mem_of_getElem? hk)]
  constructor
  · intro hall
    -- a validator that rejects everything cannot have accepted the value
    have hreject : (runWith lib before after k name subcommands argv mem
          fun _ => .reject none).isOk →
        (runWith lib before after k name subcommands argv mem fun _ => .reject none).path ≠
          (parserWith before after k name subcommands fun _ => .reject none, lv) :: below := by
      intro hok' hpath'
      obtain ⟨f, hf⟩ := installing_flag hk after fun _ : Value F => .reject none
      exact absurd (hall _ hok' lv below f hpath' hf hpresent) nofun
    refine ⟨?current, ?last⟩
    case current =>
      by_contra hold
      have hparser : parserWith before after k name subcommands (fun _ => .reject none) =
          parserWith before after k name subcommands fun _ => .accept :=
        congrArg (Parser.mk name · subcommands) (installing_copied hk hold after _ _)
      unfold runWith at hreject hok hpath
      rw [hparser] at hreject
      exact hreject hok hpath
    case last =>
      by_contra hne
      obtain ⟨lv', below', hpath', hreplaced, hending⟩ := (hsame fun _ => .reject none).path
      rw [hpath, List.cons.injEq, Prod.mk.injEq] at hpath'
      obtain ⟨⟨-, rfl⟩, rfl⟩ := hpath'
      obtain ⟨e, he⟩ := hok
      exact hreject ⟨e, (hending hne).trans he⟩ hreplaced
  · rintro ⟨hcur, rfl⟩ v hokv lv' below' f hpathv hf hpresent'
    -- the path is that of the other run, so it ends at this parser, which is validated
    obtain ⟨lv₁, below₁, hpath₁, hpathv₁, -⟩ := (hsame v).path
    rw [hpath, List.cons.injEq] at hpath₁
    rw [hpathv₁, List.cons.injEq, ← hpath₁.2] at hpathv
    obtain ⟨above, q, lv₂, hend, hsatisfied⟩ := flagParse_lastSatisfied lib
      (parserWith before after k name subcommands v) argv mem
    have hsingle := hpathv₁.symm.trans hend
    rw [← hpath₁.2, ← List.nil_append [(_, lv₁)]] at hsingle
    obtain ⟨-, hlast'⟩ := List.append_inj' hsingle rfl
    obtain rfl : lv₁ = lv' := congrArg Prod.snd hpathv.1
    rw [List.cons.injEq, Prod.mk.injEq] at hlast'
    obtain ⟨⟨rfl, rfl⟩, -⟩ := hlast'
    obtain ⟨g, hg, hv⟩ := installing_current hk hcur hlast v
    have hfg : f = g := Option.some.inj (hf.symm.trans hg)
    exact (hsatisfied hokv h.place f hf).2 hpresent' v (hfg ▸ hv)

end run

/-- A flag of one letter that takes no value. -/
def letterFlag (c : UInt8) : Flag Unit := ⟨.bool, [c], 0, c.toNat, false, none⟩

/-- The pointer to the only flag is used at once. -/
theorem validator_applied_iff_first :
    (runCalls .empty [.add (letterFlag 0x41) true]).handles[0]? = some (some ⟨1, 0⟩) ∧
      ∀ v, Applies (runWith ⟨fun _ => none, fun _ => none⟩ [.add (letterFlag 0x41) true] [] 0
          (lit "app") [] [lit "app", lit "--A"] (fun _ => .bool false) v)
        (parserWith [.add (letterFlag 0x41) true] [] 0 (lit "app") [] v) 0 v := by
  refine ⟨rfl, ?_⟩
  refine (validator_applied_iff _ [.add (letterFlag 0x41) true] [] 0 (lit "app") []
    [lit "app", lit "--A"] (fun _ => .bool false) (h := ⟨1, 0⟩) rfl (by simp) ⟨[], rfl⟩ rfl
    rfl).mpr ⟨fun j _ => ?_, rfl⟩
  exact Nat.one_le_iff_ne_zero.mpr (Nat.mul_ne_zero (by decide) (by simp))

/-- The flags `--A`, `--B` and so on, one more than the first array has room for. -/
def letterFlags : List (RegistryCall Unit) :=
  (List.range 65).map fun i => .add (letterFlag (UInt8.ofNat (0x41 + i))) true

set_option maxRecDepth 4000 in
/-- A validator that is installed behind the last of them is lost: `--A` is accepted although the
validator rejects it. -/
theorem validator_lost :
    (runCalls .empty letterFlags).handles[0]? = some (some ⟨1, 0⟩) ∧
      ¬ Applies (runWith ⟨fun _ => none, fun _ => none⟩ letterFlags [] 0 (lit "app") []
          [lit "app", lit "--A"] (fun _ => .bool false) fun _ => .reject none)
        (parserWith letterFlags [] 0 (lit "app") [] fun _ => .reject none) 0
        fun _ => .reject none := by
  refine ⟨rfl, fun h => ?_⟩
  exact absurd (h ⟨[], rfl⟩ _ [] (letterFlag 0x41) rfl rfl rfl) nofun

end Solidc.Flags
