import Solidc.Lib.Bits
import Solidc.Lib.Ring

/-! # The work-stealing deque

Each worker of the pool owns a deque: it pushes and pops at `bottom`, while the other
workers steal at `top`. Each function is given here as the sequence of its loads, stores
and compare-exchanges: a program point and what one access does there. `size_t` wraps at
`2 ^ 64`, and `(ptrdiff_t)(b - t)` is the difference read as a signed number.

* `pushStep`, `popStep`, `stealStep` — one access of `deque_push_bottom`,
  `deque_pop_bottom` and `deque_steal_top`;
* `DequeInv` — what holds between any two accesses of an owner and any number of thieves;
* `pushStep_more` … `stealStep_done` — each access keeps it, and what the access does to
  the queue of tasks that can still be taken.
-/

namespace Solidc.Threadpool

open CLib

variable {α : Type*}

def dequeSize : Nat := 1 <<< 12
def dequeMask : Nat := dequeSize - 1

/-- `a + 1` of `size_t`. -/
def sizeSucc (a : Nat) : Nat := (a + 1) % 2 ^ 64

/-- `a - b` of `size_t`. -/
def sizeSub (a b : Nat) : Nat := (((a : Int) - b) % 2 ^ 64).toNat

/-- `(ptrdiff_t)a > 0`. -/
def isPositive (a : Nat) : Bool := decide (0 < a ∧ a < 2 ^ 63)

/-- `WorkStealDeque`. -/
structure Deque (α : Type*) where
  bottom : Nat
  top : Nat
  tasks : Nat → α

/-- `deque_init`; the task slots are left as they are. -/
def dequeInit (tasks : Nat → α) : Deque α := ⟨0, 0, tasks⟩

/-- A call goes on at a program point, or returns. -/
inductive Outcome (P R : Type*) where
  | more (pc : P)
  | done (result : R)

inductive PushPC (α : Type*) where
  | loadBottom (task : α)
  | loadTop (task : α) (b : Nat)
  | write (task : α) (b : Nat)
  | store (task : α) (b : Nat)

/-- One access of `deque_push_bottom`. -/
def pushStep (d : Deque α) : PushPC α → Deque α × Outcome (PushPC α) Bool
  | .loadBottom task => (d, .more (.loadTop task d.bottom))
  | .loadTop task b =>
    if dequeSize ≤ sizeSub b d.top then (d, .done false) else (d, .more (.write task b))
  | .write task b =>
    ({ d with tasks := Function.update d.tasks (b &&& dequeMask) task }, .more (.store task b))
  | .store _ b => ({ d with bottom := sizeSucc b }, .done true)

inductive PopPC (α : Type*) where
  | loadBottom
  | loadTop (b : Nat)
  | lower (b : Nat)
  | reload (b : Nat)
  | read (b : Nat)
  | readLast (b t : Nat)
  | cas (b t : Nat) (out : α)
  | restore (b : Nat) (won : Option α)

/-- One access of `deque_pop_bottom`; the result is the task if it returns true. -/
def popStep (d : Deque α) : PopPC α → Deque α × Outcome (PopPC α) (Option α)
  | .loadBottom => (d, .more (.loadTop d.bottom))
  | .loadTop b => if b = d.top then (d, .done none) else (d, .more (.lower (sizeSub b 1)))
  | .lower b => ({ d with bottom := b }, .more (.reload b))
  | .reload b =>
    if isPositive (sizeSub b d.top) then (d, .more (.read b))
    else if b = d.top then (d, .more (.readLast b d.top))
    else (d, .more (.restore b none))
  | .read b => (d, .done (some (d.tasks (b &&& dequeMask))))
  | .readLast b t => (d, .more (.cas b t (d.tasks (b &&& dequeMask))))
  | .cas b t out =>
    if d.top = t then ({ d with top := sizeSucc t }, .more (.restore b (some out)))
    else (d, .more (.restore b none))
  | .restore b won => ({ d with bottom := sizeSucc b }, .done won)

inductive StealPC (α : Type*) where
  | loadTop
  | loadBottom (t : Nat)
  | read (t : Nat)
  | cas (t : Nat) (out : α)

inductive StealResult (α : Type*) where
  | success (out : α)
  | empty
  | abort

/-- One access of `deque_steal_top`. -/
def stealStep (d : Deque α) : StealPC α → Deque α × Outcome (StealPC α) (StealResult α)
  | .loadTop => (d, .more (.loadBottom d.top))
  | .loadBottom t =>
    if isPositive (sizeSub d.bottom t) then (d, .more (.read t)) else (d, .done .empty)
  | .read t => (d, .more (.cas t (d.tasks (t &&& dequeMask))))
  | .cas t out =>
    if d.top = t then ({ d with top := sizeSucc t }, .done (.success out)) else (d, .done .abort)

/-! ## Arithmetic of `size_t` -/

theorem and_dequeMask (i : Nat) : i &&& dequeMask = i % dequeSize :=
  and_mask i 12

theorem sizeSucc_eq {a : Nat} (h : a < 2 ^ 63) : sizeSucc a = a + 1 := by
  unfold sizeSucc
  omega

theorem sizeSub_eq {a b : Nat} (hle : b ≤ a) (h : a < 2 ^ 63 + 1) : sizeSub a b = a - b := by
  unfold sizeSub
  omega

theorem isPositive_sizeSub {a b : Nat} (ha : a < 2 ^ 63) (hb : b < 2 ^ 63) :
    isPositive (sizeSub a b) = true ↔ b < a := by
  unfold isPositive sizeSub
  rw [decide_eq_true_iff]
  omega

/-! ## The invariant -/

/-- What the owner is doing. -/
inductive Owner (α : Type*) where
  | idle
  | pushing (pc : PushPC α)
  | popping (pc : PopPC α)

/-- The task that the owner has won from the last thief and not yet returned. -/
def PopPC.won : PopPC α → List (Nat × α)
  | .restore b (some x) => [(b, x)]
  | _ => []

/-- The end of the tasks that can still be taken. A pop that has lowered `bottom` still has
the task at the old end to take or to lose. -/
def Deque.limit (d : Deque α) : Owner α → Nat
  | .popping (.reload b) | .popping (.read b) | .popping (.readLast b _)
  | .popping (.cas b _ _) | .popping (.restore b _) => b + 1
  | _ => d.bottom

/-- The end of the tasks that a thief can still take. -/
def Deque.safe (d : Deque α) : Owner α → Nat
  | .popping (.read b) => b
  | o => d.limit o

/-- The tasks that can still be taken, with their indices. -/
def Deque.cells (d : Deque α) (o : Owner α) : List (Nat × α) :=
  ring dequeSize d.tasks d.top (d.limit o)

/-- What the owner knows at its program point. -/
def Deque.OwnerOk (d : Deque α) : Owner α → Prop
  | .pushing (.loadTop _ b) => b = d.bottom
  | .pushing (.write _ b) => b = d.bottom ∧ b < d.top + dequeSize
  | .pushing (.store x b) => b = d.bottom ∧ b < d.top + dequeSize ∧ d.tasks (b % dequeSize) = x
  | .popping (.loadTop b) => b = d.bottom
  | .popping (.lower b) => b + 1 = d.bottom
  | .popping (.reload b) => b = d.bottom
  | .popping (.read b) => b = d.bottom ∧ d.top ≤ b
  | .popping (.readLast b t) => b = d.bottom ∧ t = b ∧ b ≤ d.top
  | .popping (.cas b t x) =>
    b = d.bottom ∧ t = b ∧ b ≤ d.top ∧ (d.top = b → d.tasks (b % dequeSize) = x)
  | .popping (.restore b _) => b = d.bottom ∧ d.top = b + 1
  | _ => True

/-- What a thief knows: if nothing was taken from the top since it loaded `top`, its task
is there to be taken. -/
def Deque.ThiefOk (d : Deque α) (safe : Nat) : Option (StealPC α) → Prop
  | some (.loadBottom t) => t ≤ d.top
  | some (.read t) => t ≤ d.top ∧ (d.top = t → t < safe)
  | some (.cas t x) => t ≤ d.top ∧ (d.top = t → t < safe ∧ d.tasks (t % dequeSize) = x)
  | _ => True

/-- The invariant of a deque with its owner and its thieves. -/
structure DequeInv {T : Type*} (d : Deque α) (o : Owner α) (thieves : T → Option (StealPC α)) :
    Prop where
  top_le : d.top ≤ d.limit o
  limit_le : d.limit o ≤ d.top + dequeSize
  owner : d.OwnerOk o
  thief : ∀ t, d.ThiefOk (d.safe o) (thieves t)

variable {T : Type*} {d d' : Deque α} {thieves : T → Option (StealPC α)}

/-- A thief that still has its index to take is below `bottom` or below a popped end. -/
theorem Deque.OwnerOk.bottom_le_safe {o : Owner α} (h : d.OwnerOk o) : d.bottom ≤ d.safe o := by
  rcases o with _ | pc | pc
  · exact Nat.le_refl _
  · exact Nat.le_refl _
  · cases pc <;> simp only [OwnerOk, safe, limit] at h ⊢ <;> omega

theorem Deque.limit_congr (o : Owner α) (h : d'.bottom = d.bottom) : d'.limit o = d.limit o := by
  rcases o with _ | pc | pc
  · exact h
  · exact h
  · cases pc <;> simp only [limit, h]

theorem Deque.safe_le_limit (o : Owner α) : d.safe o ≤ d.limit o := by
  rcases o with _ | pc | pc
  · exact Nat.le_refl _
  · exact Nat.le_refl _
  · cases pc <;> simp only [safe, limit] <;> omega

/-- What the owner knows survives a successful steal. -/
theorem Deque.OwnerOk.of_taken {o : Owner α} (h : d.OwnerOk o) (hlt : d.top < d.safe o) :
    Deque.OwnerOk { d with top := d.top + 1 } o := by
  rcases o with _ | pc | pc
  · trivial
  · cases pc with
    | loadBottom x => trivial
    | loadTop x b => exact h
    | write x b => exact ⟨h.1, Nat.lt_of_lt_of_le h.2 (by simp)⟩
    | store x b => exact ⟨h.1, Nat.lt_of_lt_of_le h.2.1 (by simp), h.2.2⟩
  · cases pc with
    | loadBottom => trivial
    | loadTop b => exact h
    | lower b => exact h
    | reload b => exact h
    | read b => exact ⟨h.1, hlt⟩
    | readLast b t => exact ⟨h.1, h.2.1, Nat.le_succ_of_le h.2.2⟩
    | cas b t x =>
      have hle : b ≤ d.top := h.2.2.1
      exact ⟨h.1, h.2.1, Nat.le_succ_of_le hle, fun ht => absurd ht (by simp; omega)⟩
    | restore b won =>
      have htop : d.top = b + 1 := h.2
      have hlt' : d.top < b + 1 := hlt
      omega

/-- A thief's knowledge lasts while `top` and the slots stay and the safe end does not
move below `top`. -/
theorem Deque.ThiefOk.of_safe {e e' : Nat} {pc : Option (StealPC α)} (h : d.ThiefOk e pc)
    (htop : d'.top = d.top) (htasks : d'.tasks = d.tasks) (he : d.top < e → d.top < e') :
    d'.ThiefOk e' pc := by
  match pc with
  | none | some .loadTop => trivial
  | some (.loadBottom t) => simpa [ThiefOk, htop] using h
  | some (.read t) =>
    simp only [ThiefOk, htop] at h ⊢
    exact ⟨h.1, fun ht => ht ▸ he (ht ▸ h.2 ht)⟩
  | some (.cas t x) =>
    simp only [ThiefOk, htop, htasks] at h ⊢
    exact ⟨h.1, fun ht => ⟨ht ▸ he (ht ▸ (h.2 ht).1), (h.2 ht).2⟩⟩

/-- Once the task at `top` is taken, no other thief can take it. -/
theorem Deque.ThiefOk.of_taken {e e' : Nat} {pc : Option (StealPC α)} (h : d.ThiefOk e pc)
    (htop : d'.top = d.top + 1) : d'.ThiefOk e' pc := by
  match pc with
  | none | some .loadTop => trivial
  | some (.loadBottom t) => simp only [ThiefOk] at h ⊢; omega
  | some (.read t) => simp only [ThiefOk] at h ⊢; omega
  | some (.cas t x) =>
    simp only [ThiefOk] at h ⊢
    exact ⟨by omega, fun ht => by omega⟩

/-- A thief does not see a write ahead of the queue. -/
theorem Deque.ThiefOk.of_write {e b : Nat} {x : α} {pc : Option (StealPC α)} (h : d.ThiefOk e pc)
    (he : e ≤ b) (hb : b < d.top + dequeSize) :
    Deque.ThiefOk { d with tasks := Function.update d.tasks (b % dequeSize) x } e pc := by
  match pc with
  | none | some .loadTop => trivial
  | some (.loadBottom t) => exact h
  | some (.read t) => exact h
  | some (.cas t y) =>
    refine ⟨h.1, fun ht => ⟨(h.2 ht).1, ?_⟩⟩
    have hlt : t < e := (h.2 ht).1
    have htop : d.top = t := ht
    have hne : t % dequeSize ≠ b % dequeSize := mod_ne_of_near (by omega) (by omega)
    exact (Function.update_of_ne hne _ _).trans (h.2 ht).2

/-! ## Pushing -/

/-- The task that a push is about. -/
def PushPC.task : PushPC α → α
  | .loadBottom x | .loadTop x _ | .write x _ | .store x _ => x

/-- The index that the last access of a push makes available. -/
def PushPC.index : PushPC α → Nat
  | .store _ b => b
  | _ => 0

/-- An access of a push that goes on. -/
theorem pushStep_more {pc pc' : PushPC α} (inv : DequeInv d (.pushing pc) thieves)
    (hb : d.bottom < 2 ^ 63) (h : pushStep d pc = (d', .more pc')) :
    DequeInv d' (.pushing pc') thieves ∧ d'.cells (.pushing pc') = d.cells (.pushing pc) ∧
      pc'.task = pc.task ∧ d'.bottom = d.bottom ∧ d'.top = d.top := by
  obtain ⟨htop, hlimit, howner, hthief⟩ := inv
  cases pc with
  | loadBottom x =>
    cases h
    exact ⟨⟨htop, hlimit, rfl, hthief⟩, rfl, rfl, rfl, rfl⟩
  | loadTop x b =>
    have hb' : b = d.bottom := howner
    have hle : d.top ≤ b := hb' ▸ htop
    by_cases hfull : dequeSize ≤ sizeSub b d.top
    · simp [pushStep, hfull] at h
    · rw [pushStep, if_neg hfull] at h
      cases h
      rw [sizeSub_eq hle (by omega)] at hfull
      exact ⟨⟨htop, hlimit, ⟨hb', by omega⟩, hthief⟩, rfl, rfl, rfl, rfl⟩
  | write x b =>
    obtain ⟨hb', hlt⟩ : b = d.bottom ∧ b < d.top + dequeSize := howner
    rw [pushStep, and_dequeMask] at h
    cases h
    -- the slot of `bottom` is ahead of every task that can still be taken
    have hsafe : d.safe (.pushing (.write x b)) ≤ b := hb' ▸ Nat.le_refl _
    refine ⟨⟨htop, hlimit, ⟨hb', hlt, Function.update_self _ _ _⟩,
      fun t => (hthief t).of_write hsafe hlt⟩, ?_, rfl, rfl, rfl⟩
    exact ring_write hsafe hlt x
  | store x b => simp [pushStep] at h

/-- The access with which a push returns. It fails only on a full deque. -/
theorem pushStep_done {pc : PushPC α} {ok : Bool} (inv : DequeInv d (.pushing pc) thieves)
    (hb : d.bottom < 2 ^ 63) (h : pushStep d pc = (d', .done ok)) :
    DequeInv d' .idle thieves ∧ d'.top = d.top ∧
      (ok = true → d'.cells .idle = d.cells (.pushing pc) ++ [(pc.index, pc.task)] ∧
        d'.bottom = d.bottom + 1) ∧
      (ok = false → d' = d ∧ d.bottom = d.top + dequeSize) := by
  obtain ⟨htop, hlimit, howner, hthief⟩ := inv
  cases pc with
  | loadBottom x => simp [pushStep] at h
  | loadTop x b =>
    have hb' : b = d.bottom := howner
    have hle : d.top ≤ b := hb' ▸ htop
    have hle' : b ≤ d.top + dequeSize := hb' ▸ hlimit
    by_cases hfull : dequeSize ≤ sizeSub b d.top
    · rw [pushStep, if_pos hfull] at h
      cases h
      rw [sizeSub_eq hle (by omega)] at hfull
      exact ⟨⟨htop, hlimit, trivial, hthief⟩, rfl, nofun, fun _ => ⟨rfl, by omega⟩⟩
    · simp [pushStep, hfull] at h
  | write x b => simp [pushStep] at h
  | store x b =>
    obtain ⟨hb', hlt, hslot⟩ :
      b = d.bottom ∧ b < d.top + dequeSize ∧ d.tasks (b % dequeSize) = x := howner
    rw [pushStep, sizeSucc_eq (hb' ▸ hb)] at h
    cases h
    have htop' : d.top ≤ b := hb' ▸ htop
    refine ⟨⟨Nat.le_succ_of_le htop', hlt, trivial, fun t => (hthief t).of_safe rfl rfl ?_⟩, rfl,
      fun _ => ⟨?_, hb' ▸ rfl⟩, nofun⟩
    · intro hsafe
      exact hb' ▸ Nat.lt_succ_of_lt hsafe
    · show ring dequeSize d.tasks d.top (b + 1) = ring dequeSize d.tasks d.top d.bottom ++ _
      rw [ring_snoc htop', ← hb', hslot]
      rfl

/-! ## Popping -/

/-- An access of a pop that goes on: the task it wins is the last of the queue. -/
theorem popStep_more {pc pc' : PopPC α} (inv : DequeInv d (.popping pc) thieves)
    (hb : d.limit (.popping pc) < 2 ^ 63) (h : popStep d pc = (d', .more pc')) :
    DequeInv d' (.popping pc') thieves ∧
      d'.cells (.popping pc') ++ pc'.won = d.cells (.popping pc) ++ pc.won ∧
      d'.limit (.popping pc') = d.limit (.popping pc) := by
  obtain ⟨htop, hlimit, howner, hthief⟩ := inv
  cases pc with
  | loadBottom =>
    cases h
    exact ⟨⟨htop, hlimit, rfl, hthief⟩, rfl, rfl⟩
  | loadTop b =>
    have hb' : b = d.bottom := howner
    by_cases hempty : b = d.top
    · simp [popStep, hempty] at h
    · rw [popStep, if_neg hempty] at h
      cases h
      have htop' : d.top ≤ d.bottom := htop
      have hbound : d.bottom < 2 ^ 63 := hb
      have hdec : sizeSub b 1 + 1 = d.bottom := by
        rw [sizeSub_eq (by omega) (by omega)]
        omega
      exact ⟨⟨htop, hlimit, hdec, hthief⟩, rfl, rfl⟩
  | lower b =>
    have hb' : b + 1 = d.bottom := howner
    rw [popStep] at h
    cases h
    -- `bottom` is lowered, and the end of the queue stays where it was
    have htop' : d.top ≤ b + 1 := hb'.symm ▸ htop
    have hlimit' : b + 1 ≤ d.top + dequeSize := hb'.symm ▸ hlimit
    refine ⟨⟨htop', hlimit', rfl, fun t => (hthief t).of_safe rfl rfl ?_⟩, ?_, hb'⟩
    · intro hsafe
      show d.top < b + 1
      exact hb'.symm ▸ hsafe
    · show ring dequeSize d.tasks d.top (b + 1) ++ [] = ring dequeSize d.tasks d.top d.bottom ++ []
      rw [hb']
  | reload b =>
    have hb' : b = d.bottom := howner
    have htop' : d.top ≤ b + 1 := htop
    have hbound : b + 1 < 2 ^ 63 := hb
    have hpos := isPositive_sizeSub (a := b) (b := d.top) (by omega) (by omega)
    by_cases hmany : d.top < b
    · rw [popStep, if_pos (hpos.mpr hmany)] at h
      cases h
      -- no thief is at the popped index, since `top` is below it
      refine ⟨⟨htop, hlimit, ⟨hb', hmany.le⟩, fun t => (hthief t).of_safe rfl rfl ?_⟩, rfl, rfl⟩
      intro _
      exact hmany
    · rw [popStep, if_neg (fun hc => hmany (hpos.mp hc))] at h
      by_cases hone : b = d.top
      · rw [if_pos hone] at h
        cases h
        exact ⟨⟨htop, hlimit, ⟨hb', hone.symm, hone.le⟩, hthief⟩, rfl, rfl⟩
      · rw [if_neg hone] at h
        cases h
        exact ⟨⟨htop, hlimit, ⟨hb', by omega⟩, hthief⟩, rfl, rfl⟩
  | read b => simp [popStep] at h
  | readLast b t =>
    obtain ⟨hb', ht, hle⟩ : b = d.bottom ∧ t = b ∧ b ≤ d.top := howner
    rw [popStep, and_dequeMask] at h
    cases h
    exact ⟨⟨htop, hlimit, ⟨hb', ht, hle, fun _ => rfl⟩, hthief⟩, rfl, rfl⟩
  | cas b t x =>
    obtain ⟨hb', ht, hle, hslot⟩ : b = d.bottom ∧ t = b ∧ b ≤ d.top ∧
      (d.top = b → d.tasks (b % dequeSize) = x) := howner
    have htop' : d.top ≤ b + 1 := htop
    have hbound : b + 1 < 2 ^ 63 := hb
    by_cases hwon : d.top = t
    · rw [popStep, if_pos hwon, sizeSucc_eq (by omega)] at h
      cases h
      have hbt : d.top = b := hwon.trans ht
      refine ⟨⟨by simp [Deque.limit, ht], by simp [Deque.limit, ht], ⟨hb', by simp [ht]⟩,
        fun i => (hthief i).of_taken (by simp [hwon])⟩, ?_, rfl⟩
      show ring dequeSize d.tasks (t + 1) (b + 1) ++ [(b, x)] =
        ring dequeSize d.tasks d.top (b + 1) ++ []
      rw [ring_eq_nil (by omega), hbt, ring_snoc (Nat.le_refl b), ring_eq_nil (Nat.le_refl b),
        hslot hbt]
      rfl
    · rw [popStep, if_neg hwon] at h
      cases h
      -- a thief took the last task, and with it the index `b`
      exact ⟨⟨htop, hlimit, ⟨hb', by omega⟩, hthief⟩, rfl, rfl⟩
  | restore b won => simp [popStep] at h

/-- The index whose task the last access of a pop returns. -/
def PopPC.index : PopPC α → Nat
  | .read b | .restore b _ => b
  | _ => 0

/-- The three accesses with which a pop can return. -/
theorem popStep_done_cases {pc : PopPC α} {won : Option α} (h : popStep d pc = (d', .done won)) :
    (pc = .loadTop d.top ∧ d' = d ∧ won = none) ∨
      (∃ b, pc = .read b ∧ d' = d ∧ won = some (d.tasks (b % dequeSize))) ∨
      ∃ b, pc = .restore b won ∧ d' = { d with bottom := sizeSucc b } := by
  cases pc with
  | loadTop b =>
    by_cases hempty : b = d.top
    · rw [popStep, if_pos hempty] at h
      cases h
      exact .inl ⟨by rw [hempty], rfl, rfl⟩
    · simp [popStep, hempty] at h
  | reload b =>
    rw [popStep] at h
    split at h
    · simp at h
    · split at h <;> simp at h
  | read b =>
    rw [popStep, and_dequeMask] at h
    cases h
    exact .inr (.inl ⟨b, rfl, rfl, rfl⟩)
  | cas b t x =>
    rw [popStep] at h
    split at h <;> simp at h
  | restore b won' =>
    cases h
    exact .inr (.inr ⟨b, rfl, rfl⟩)
  | _ => simp [popStep] at h

/-- The access with which a pop returns. -/
theorem popStep_done {pc : PopPC α} {won : Option α} (inv : DequeInv d (.popping pc) thieves)
    (hb : d.limit (.popping pc) < 2 ^ 63) (h : popStep d pc = (d', .done won)) :
    DequeInv d' .idle thieves ∧
      d'.cells .idle ++ (won.map (pc.index, ·)).toList = d.cells (.popping pc) ++ pc.won ∧
      d'.bottom ≤ d.limit (.popping pc) := by
  obtain ⟨htop, hlimit, howner, hthief⟩ := inv
  rcases popStep_done_cases h with ⟨rfl, rfl, rfl⟩ | ⟨b, rfl, rfl, rfl⟩ | ⟨b, rfl, rfl⟩
  · -- the deque was empty
    exact ⟨⟨htop, hlimit, trivial, hthief⟩, rfl, Nat.le_refl _⟩
  · -- the last task, below which there is another one
    obtain ⟨hb', hle⟩ : b = d'.bottom ∧ d'.top ≤ b := howner
    have htop' : d'.top ≤ d'.bottom := hb' ▸ hle
    have hlimit' : d'.bottom ≤ d'.top + dequeSize := hb' ▸ Nat.le_of_succ_le hlimit
    refine ⟨⟨htop', hlimit', trivial, fun t => (hthief t).of_safe rfl rfl ?_⟩, ?_,
      hb' ▸ Nat.le_succ b⟩
    · intro hsafe
      show d'.top < d'.bottom
      exact hb' ▸ hsafe
    · show ring dequeSize d'.tasks d'.top d'.bottom ++ [(b, d'.tasks (b % dequeSize))] =
        ring dequeSize d'.tasks d'.top (b + 1) ++ []
      rw [ring_snoc hle, ← hb', List.append_nil]
  · -- `bottom` is raised again, with or without the last task
    obtain ⟨hb', htop'⟩ : b = d.bottom ∧ d.top = b + 1 := howner
    have hbound : b + 1 < 2 ^ 63 := hb
    rw [sizeSucc_eq (by omega)]
    refine ⟨⟨htop, hlimit, trivial, fun t => (hthief t).of_safe rfl rfl fun hsafe => hsafe⟩, ?_,
      Nat.le_refl _⟩
    cases won <;> rfl

/-! ## Stealing -/

section

variable [DecidableEq T] {o : Owner α} {t : T}

/-- An access of a steal that goes on changes nothing. -/
theorem stealStep_more {pc pc' : StealPC α} (inv : DequeInv d o thieves) (ht : thieves t = some pc)
    (hb : d.limit o < 2 ^ 63) (h : stealStep d pc = (d', .more pc')) :
    DequeInv d' o (Function.update thieves t (some pc')) ∧ d' = d := by
  obtain ⟨htop, hlimit, howner, hthief⟩ := inv
  have hkeep : d.ThiefOk (d.safe o) (some pc') →
      DequeInv d o (Function.update thieves t (some pc')) := by
    intro hnew
    refine ⟨htop, hlimit, howner, fun i => ?_⟩
    by_cases hi : i = t
    · rw [hi, Function.update_self]
      exact hnew
    · rw [Function.update_of_ne hi]
      exact hthief i
  have hold : d.ThiefOk (d.safe o) (some pc) := ht ▸ hthief t
  cases pc with
  | loadTop =>
    cases h
    exact ⟨hkeep (Nat.le_refl d.top), rfl⟩
  | loadBottom i =>
    have hle : i ≤ d.top := hold
    have hsafe := howner.bottom_le_safe
    have hsl := d.safe_le_limit o
    by_cases hpos : isPositive (sizeSub d.bottom i) = true
    · rw [stealStep, if_pos hpos] at h
      cases h
      have hlt : i < d.bottom := (isPositive_sizeSub (by omega) (by omega)).mp hpos
      exact ⟨hkeep ⟨hle, fun _ => by omega⟩, rfl⟩
    · simp [stealStep, hpos] at h
  | read i =>
    rw [stealStep, and_dequeMask] at h
    cases h
    exact ⟨hkeep ⟨hold.1, fun hi => ⟨hold.2 hi, rfl⟩⟩, rfl⟩
  | cas i x =>
    rw [stealStep] at h
    split at h <;> simp at h

/-- The index whose task the last access of a steal takes. -/
def StealPC.index : StealPC α → Nat
  | .cas t _ => t
  | _ => 0

/-- The access with which a steal returns: it takes the first task of the queue, or
changes nothing. -/
theorem stealStep_done {pc : StealPC α} {r : StealResult α} (inv : DequeInv d o thieves)
    (ht : thieves t = some pc) (hb : d.limit o < 2 ^ 63) (h : stealStep d pc = (d', .done r)) :
    DequeInv d' o (Function.update thieves t none) ∧
      ((d' = d ∧ ∀ x, r ≠ .success x) ∨
        ∃ x, r = .success x ∧ d' = { d with top := d.top + 1 } ∧
          d.cells o = (pc.index, x) :: d'.cells o) := by
  obtain ⟨htop, hlimit, howner, hthief⟩ := inv
  have hothers : ∀ {e : Deque α}, (∀ i, e.ThiefOk (e.safe o) (thieves i)) →
      ∀ i, e.ThiefOk (e.safe o) (Function.update thieves t none i) := by
    intro e hall i
    by_cases hi : i = t
    · rw [hi, Function.update_self]
      trivial
    · rw [Function.update_of_ne hi]
      exact hall i
  have hold : d.ThiefOk (d.safe o) (some pc) := ht ▸ hthief t
  cases pc with
  | loadTop => simp [stealStep] at h
  | loadBottom i =>
    rw [stealStep] at h
    split at h
    · simp at h
    · cases h
      exact ⟨⟨htop, hlimit, howner, hothers hthief⟩, .inl ⟨rfl, nofun⟩⟩
  | read i => simp [stealStep] at h
  | cas i x =>
    by_cases hwon : d.top = i
    · obtain ⟨hlt, hslot⟩ := hold.2 hwon
      have hsl := d.safe_le_limit o
      rw [stealStep, if_pos hwon, sizeSucc_eq (by omega), ← hwon] at h
      cases h
      have hlim : ({ d with top := d.top + 1 } : Deque α).limit o = d.limit o :=
        Deque.limit_congr o rfl
      refine ⟨⟨?_, ?_, howner.of_taken (hwon ▸ hlt), hothers fun i => (hthief i).of_taken rfl⟩,
        .inr ⟨x, rfl, rfl, ?_⟩⟩
      · rw [hlim]
        show d.top + 1 ≤ d.limit o
        omega
      · rw [hlim]
        exact Nat.le_trans hlimit (by simp)
      · unfold Deque.cells
        rw [hlim, ring_cons (by omega), hwon, hslot]
        rfl
    · rw [stealStep, if_neg hwon] at h
      cases h
      exact ⟨⟨htop, hlimit, howner, hothers hthief⟩, .inl ⟨rfl, nofun⟩⟩

end

end Solidc.Threadpool
