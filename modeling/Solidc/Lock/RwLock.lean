import Solidc.Lib.Cyclic
import Solidc.Lib.Transition
import Mathlib.Data.Fintype.Basic
import Mathlib.Data.Fintype.Card
import Mathlib.Algebra.BigOperators.Group.Finset.Basic

/-! # The spinning reader-writer lock

One `atomic_int` is the whole lock: `-1` while a writer holds it, and the number of readers
otherwise. A step is one load, compare-exchange (which may fail for no reason), decrement
or store of one thread.

* `LockState.Inv` — either one writer and nothing else, or the readers counted by the word;
* `rwlock_exact` — it holds in every interleaving, so writers exclude everybody.
-/

namespace Solidc.Lock

open CLib

/-- The value of a 32-bit `int` after an operation that wraps around. -/
def toInt32 (x : Int) : Int := (x + 2 ^ 31) % 2 ^ 32 - 2 ^ 31

/-- Where a thread is: outside, in `fast_rwlock_rdlock` before its load or before its
compare-exchange with the value loaded, in `fast_rwlock_wrlock`, or holding the lock. -/
inductive LockPC where
  | idle
  | rdLoad
  | rdCas (state : Int)
  | reading
  | wrCas
  | writing
deriving DecidableEq

/-- `fast_rwlock_t` and the threads that use it. -/
structure LockState (T : Type*) where
  state : Int
  pc : T → LockPC

inductive LockAct (T : Type*) where
  /-- A thread calls `fast_rwlock_rdlock` or `fast_rwlock_wrlock`. -/
  | rdlock (t : T)
  | wrlock (t : T)
  /-- The next access of a thread in a call; `spurious` makes a compare-exchange fail. -/
  | step (t : T) (spurious : Bool)
  /-- A holder calls `fast_rwlock_unlock_rd` or `fast_rwlock_unlock_wr`. -/
  | unlockRd (t : T)
  | unlockWr (t : T)

variable {T : Type*}

/-- `fast_rwlock_init`. -/
def LockState.initial (T : Type*) : LockState T where
  state := 0
  pc _ := .idle

variable [DecidableEq T]

def LockState.setPc (s : LockState T) (t : T) (pc : LockPC) : LockState T :=
  { s with pc := Function.update s.pc t pc }

/-- One access of the loops of `fast_rwlock_rdlock` and `fast_rwlock_wrlock`. -/
def lockAccess (s : LockState T) (t : T) (spurious : Bool) : Option (LockState T) :=
  match s.pc t with
  | .rdLoad => some (if s.state < 0 then s else s.setPc t (.rdCas s.state))
  | .rdCas expected =>
    if s.state = expected ∧ spurious = false then
      some ({ s with state := toInt32 (expected + 1) }.setPc t .reading)
    else some (s.setPc t .rdLoad)
  | .wrCas =>
    if s.state = 0 ∧ spurious = false then some ({ s with state := -1 }.setPc t .writing)
    else some s
  | _ => none

/-- One step. Lock and unlock calls of a thread are matched. -/
def LockState.perform (s : LockState T) : LockAct T → Option (LockState T)
  | .rdlock t => if s.pc t = .idle then some (s.setPc t .rdLoad) else none
  | .wrlock t => if s.pc t = .idle then some (s.setPc t .wrCas) else none
  | .step t spurious => lockAccess s t spurious
  | .unlockRd t =>
    if s.pc t = .reading then some ({ s with state := toInt32 (s.state - 1) }.setPc t .idle)
    else none
  | .unlockWr t =>
    if s.pc t = .writing then some ({ s with state := 0 }.setPc t .idle) else none

/-- The threads of `T` on one lock. -/
def rwlock (T : Type*) [DecidableEq T] : System (LockState T) (LockAct T) where
  init s := s = .initial T
  step s a s' := s.perform a = some s'

/-! ## The invariant -/

variable [Fintype T] {s s' : LockState T}

/-- The number of read holders. -/
def LockState.readers (s : LockState T) : Nat := (Finset.univ.filter (s.pc · = .reading)).card

/-- One writer and no reader, or readers that the word counts. A reader about to exchange
has loaded a count. -/
structure LockState.Inv (s : LockState T) : Prop where
  word : (s.state = -1 ∧ s.readers = 0 ∧ ∃ t, ∀ t', s.pc t' = .writing ↔ t' = t) ∨
    (s.state = s.readers ∧ ∀ t, s.pc t ≠ .writing)
  loaded : ∀ t x, s.pc t = .rdCas x → 0 ≤ x

/-- What a step of `t` does to the number of readers. -/
theorem readers_setPc (s : LockState T) (t : T) (pc : LockPC) :
    (s.setPc t pc).readers + (if s.pc t = .reading then 1 else 0) =
      s.readers + (if pc = .reading then 1 else 0) := by
  unfold LockState.readers
  rw [Finset.card_filter, Finset.card_filter]
  exact sum_update (Finset.mem_univ t) (fun pc => if pc = .reading then 1 else 0) s.pc pc

omit [DecidableEq T] in
theorem readers_le (s : LockState T) : s.readers ≤ Fintype.card T := Finset.card_le_univ _

omit [DecidableEq T] in
theorem initial_inv : (LockState.initial T).Inv where
  word := .inr ⟨by simp [LockState.readers, LockState.initial], nofun⟩
  loaded := nofun

/-- A step of a thread that neither gains nor gives up the lock. -/
theorem LockState.Inv.quiet (h : s.Inv) {t : T} {pc : LockPC} (hr : s.pc t ≠ .reading)
    (hw : s.pc t ≠ .writing) (hr' : pc ≠ .reading) (hw' : pc ≠ .writing)
    (hload : ∀ x, pc = .rdCas x → 0 ≤ x) : (s.setPc t pc).Inv := by
  have hreaders : (s.setPc t pc).readers = s.readers := by
    have hcount := readers_setPc s t pc
    rw [if_neg hr, if_neg hr'] at hcount
    omega
  have hwriting : ∀ t', (s.setPc t pc).pc t' = .writing ↔ s.pc t' = .writing := by
    intro t'
    by_cases ht : t' = t
    · subst ht
      simp [LockState.setPc, hw, hw']
    · simp [LockState.setPc, Function.update_of_ne ht]
  constructor
  · rw [hreaders]
    rcases h.word with ⟨hstate, hzero, u, hu⟩ | ⟨hstate, hno⟩
    · exact .inl ⟨hstate, hzero, u, fun t' => (hwriting t').trans (hu t')⟩
    · exact .inr ⟨hstate, fun t' hc => hno t' ((hwriting t').mp hc)⟩
  · intro t' x hx
    by_cases ht : t' = t
    · subst ht
      exact hload x (by simpa [LockState.setPc] using hx)
    · exact h.loaded t' x (by simpa [LockState.setPc, Function.update_of_ne ht] using hx)

omit [DecidableEq T] in
/-- A thread that holds a read lock is counted. -/
theorem readers_pos {t : T} (h : s.pc t = .reading) : 0 < s.readers :=
  Finset.card_pos.mpr ⟨t, Finset.mem_filter.mpr ⟨Finset.mem_univ t, h⟩⟩

theorem LockState.Inv.of_change (h : s.Inv) {t : T} {pc : LockPC} {x : Int}
    (hload : ∀ y, pc ≠ .rdCas y)
    (hword : (x = -1 ∧ (s.setPc t pc).readers = 0 ∧
        ∃ u, ∀ t', (s.setPc t pc).pc t' = .writing ↔ t' = u) ∨
      (x = (s.setPc t pc).readers ∧ ∀ t', (s.setPc t pc).pc t' ≠ .writing)) :
    LockState.Inv ({ s with state := x }.setPc t pc) where
  word := hword
  loaded t' y hy := by
    by_cases ht : t' = t
    · subst ht
      exact absurd (by simpa [LockState.setPc] using hy) (hload y)
    · exact h.loaded t' y (by simpa [LockState.setPc, Function.update_of_ne ht] using hy)

omit [Fintype T] in
theorem not_writing_setPc {t : T} {pc : LockPC} (hno : ∀ t', s.pc t' ≠ .writing)
    (hpc : pc ≠ .writing) : ∀ t', (s.setPc t pc).pc t' ≠ .writing := by
  intro t'
  by_cases ht : t' = t
  · subst ht
    simpa [LockState.setPc] using hpc
  · simpa [LockState.setPc, Function.update_of_ne ht] using hno t'

/-- A successful compare-exchange of a reader. -/
theorem rdCas_inv (h : s.Inv) (hfew : Fintype.card T < 2 ^ 31 - 1) {t : T}
    (hpc : s.pc t = .rdCas s.state) :
    LockState.Inv ({ s with state := toInt32 (s.state + 1) }.setPc t .reading) := by
  refine h.of_change nofun (.inr ?_)
  have hcount := readers_setPc s t .reading
  rw [if_neg (by simp [hpc]), if_pos rfl] at hcount
  have hle := readers_le s
  -- the word loaded was a count, so no writer holds the lock
  rcases h.word with ⟨hstate, -, -⟩ | ⟨hstate, hno⟩
  · have := h.loaded t s.state hpc
    omega
  · refine ⟨?_, not_writing_setPc hno nofun⟩
    unfold toInt32
    omega

/-- A successful compare-exchange of a writer. -/
theorem wrCas_inv (h : s.Inv) {t : T} (hpc : s.pc t = .wrCas) (hfree : s.state = 0) :
    LockState.Inv ({ s with state := -1 }.setPc t .writing) := by
  refine h.of_change nofun (.inl ?_)
  have hcount := readers_setPc s t .writing
  rw [if_neg (by simp [hpc]), if_neg nofun] at hcount
  rcases h.word with ⟨hstate, -, -⟩ | ⟨hstate, hno⟩
  · omega
  · refine ⟨rfl, by omega, t, fun t' => ?_⟩
    by_cases ht : t' = t
    · subst ht
      simp [LockState.setPc]
    · simp [LockState.setPc, ht, hno t']

theorem unlockRd_inv (h : s.Inv) (hfew : Fintype.card T < 2 ^ 31 - 1) {t : T}
    (hpc : s.pc t = .reading) :
    LockState.Inv ({ s with state := toInt32 (s.state - 1) }.setPc t .idle) := by
  refine h.of_change nofun (.inr ?_)
  have hcount := readers_setPc s t .idle
  rw [if_pos hpc, if_neg nofun] at hcount
  have hle := readers_le s
  have hpos := readers_pos hpc
  rcases h.word with ⟨-, hzero, -⟩ | ⟨hstate, hno⟩
  · omega
  · refine ⟨?_, not_writing_setPc hno nofun⟩
    unfold toInt32
    omega

theorem unlockWr_inv (h : s.Inv) {t : T} (hpc : s.pc t = .writing) :
    LockState.Inv ({ s with state := 0 }.setPc t .idle) := by
  refine h.of_change nofun (.inr ?_)
  have hcount := readers_setPc s t .idle
  rw [if_neg (by simp [hpc]), if_neg nofun] at hcount
  rcases h.word with ⟨-, hzero, u, hu⟩ | ⟨-, hno⟩
  · -- `t` was the only writer
    have htu : t = u := (hu t).mp hpc
    refine ⟨by omega, fun t' hc => ?_⟩
    by_cases ht : t' = t
    · subst ht
      simp [LockState.setPc] at hc
    · have hw : s.pc t' = .writing := by
        simpa [LockState.setPc, Function.update_of_ne ht] using hc
      exact ht (((hu t').mp hw).trans htu.symm)
  · exact absurd hpc (hno t)

theorem lockAccess_inv (h : s.Inv) (hfew : Fintype.card T < 2 ^ 31 - 1) {t : T} {spurious : Bool}
    (hstep : lockAccess s t spurious = some s') : s'.Inv := by
  unfold lockAccess at hstep
  split at hstep
  · next hpc =>
    cases hstep
    split
    · exact h
    · next hstate =>
      refine h.quiet (by simp [hpc]) (by simp [hpc]) nofun nofun fun x hx => ?_
      cases hx
      omega
  · next expected hpc =>
    split at hstep
    · next hok =>
      cases hstep
      obtain ⟨rfl, -⟩ := hok
      exact rdCas_inv h hfew hpc
    · cases hstep
      exact h.quiet (by simp [hpc]) (by simp [hpc]) nofun nofun nofun
  · next hpc =>
    split at hstep
    · next hok =>
      cases hstep
      exact wrCas_inv h hpc hok.1
    · cases hstep
      exact h
  · cases hstep

theorem perform_inv (h : s.Inv) (hfew : Fintype.card T < 2 ^ 31 - 1) {a : LockAct T}
    (hstep : s.perform a = some s') : s'.Inv := by
  cases a with
  | rdlock t | wrlock t =>
    simp only [LockState.perform] at hstep
    split at hstep
    · next hpc =>
      cases hstep
      exact h.quiet (by simp [hpc]) (by simp [hpc]) nofun nofun nofun
    · cases hstep
  | step t spurious => exact lockAccess_inv h hfew hstep
  | unlockRd t =>
    simp only [LockState.perform] at hstep
    split at hstep
    · next hpc =>
      cases hstep
      exact unlockRd_inv h hfew hpc
    · cases hstep
  | unlockWr t =>
    simp only [LockState.perform] at hstep
    split at hstep
    · next hpc =>
      cases hstep
      exact unlockWr_inv h hpc
    · cases hstep

/-- The word tells who holds the lock: `-1` exactly if one thread writes and none reads, and
the number of readers otherwise. -/
structure LockState.Exact (s : LockState T) : Prop where
  writer : s.state = -1 ↔
    (∃ t, ∀ t', s.pc t' = .writing ↔ t' = t) ∧ ∀ t, s.pc t ≠ .reading
  count : s.state ≠ -1 → s.state = s.readers
  exclusive : ∀ t t', s.pc t = .writing → s.pc t' ≠ .reading ∧ (s.pc t' = .writing → t' = t)

theorem LockState.Inv.exact (h : s.Inv) : s.Exact := by
  rcases h.word with ⟨hstate, hzero, u, hu⟩ | ⟨hstate, hno⟩
  · have hnone : ∀ t, s.pc t ≠ .reading := fun t ht => absurd (readers_pos ht) (by omega)
    refine ⟨⟨fun _ => ⟨⟨u, hu⟩, hnone⟩, fun _ => hstate⟩, fun hne => absurd hstate hne, ?_⟩
    intro t t' ht
    exact ⟨hnone t', fun ht' => ((hu t').mp ht').trans ((hu t).mp ht).symm⟩
  · refine ⟨⟨fun hc => ?_, ?_⟩, fun _ => hstate, fun t _ ht => absurd ht (hno t)⟩
    · omega
    · rintro ⟨⟨u, hu⟩, -⟩
      exact absurd ((hu u).mpr rfl) (hno u)

/-- The lock under fewer than `2 ^ 31 - 1` threads. -/
theorem rwlock_exact (hfew : Fintype.card T < 2 ^ 31 - 1) (h : Reach (rwlock T) AnyStep s) :
    s.Exact := by
  have hinv : s.Inv := by
    refine h.invariant LockState.Inv ?_ ?_
    · rintro _ rfl
      exact initial_inv
    · intro s a s' ih _ hstep
      exact perform_inv ih hfew hstep
  exact hinv.exact

/-- Two threads: one reads while the other tries to write, then the other holds the lock. -/
def readThenWrite : List (LockAct Bool) :=
  [.rdlock true, .step true false, .step true true, .step true false, .step true false,
    .wrlock false, .step false false, .unlockRd true, .step false false]

theorem rwlock_exact_readThenWrite : ∃ s : LockState Bool, Reach (rwlock Bool) AnyStep s ∧
    s.state = -1 ∧ s.pc false = .writing ∧ s.Exact := by
  have hview : (readThenWrite.foldlM LockState.perform (LockState.initial Bool)).map
      (fun s => (s.state, s.pc false)) = some (-1, .writing) := by
    decide
  obtain ⟨s, hs, hsv⟩ := Option.map_eq_some_iff.mp hview
  obtain ⟨hstate, hpc⟩ := Prod.mk.inj hsv
  have hreach : Reach (rwlock Bool) AnyStep s :=
    Reach.run (fun _ _ _ h => ⟨trivial, h⟩) (.init rfl) hs
  exact ⟨s, hreach, hstate, hpc, rwlock_exact (by decide) hreach⟩

end Solidc.Lock
