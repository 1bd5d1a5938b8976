import Solidc.Cache.Sequential
import Solidc.Lib.Transition

/-! # Reference counts under concurrency

Any number of threads call the cache. A step is one section under a shard's lock or one
`cache_release`; between the two sections of an expired `cache_get`, and between the
sections of `cache_clear` and `cache_destroy`, other threads may run. `World` counts the
pointers that callers hold and have not released.

* `World.Exact` — each count is the number of slots and callers that refer to the entry,
  and what nobody refers to is freed;
* `refcountSafe_of_bounded` — this holds in every run in which no entry ever has as many
  references as the 32-bit counter can hold, no step touches a freed entry, and in the end
  everything is freed;
* `refcount_wraps` — without that bound the counter wraps around, and a `cache_release`
  frees an entry that a slot and other callers still refer to.
-/

namespace Solidc.Cache

open CLib

/-- Where a thread is between two sections. -/
inductive PC where
  | idle
  | upgrading (key : Key) (now : Int)
  | clearing (i : Nat)

/-- Whether `cache_destroy` has started, and how many shards it has emptied. -/
inductive Phase where
  | serving
  | closing (i : Nat)

/-- The cache, the threads that use it, the pointers they hold, and how often each entry
was freed. -/
structure World (T : Type*) where
  cache : CacheS
  pc : T → PC
  outstanding : Ptr → Nat
  frees : Ptr → Nat
  phase : Phase

/-- The steps. -/
inductive Act (T : Type*) where
  | get (t : T) (key : Key) (now : Int)
  | upgrade (t : T)
  | release (p : Ptr)
  | set (t : T) (key : Key) (value : List UInt8) (ttl : Nat) (now : Int) (mallocOk allocOk : Bool)
  | invalidate (t : T) (key : Key) (allocOk : Bool)
  | clearStart (t : T)
  | clearShard (t : T)
  | clearEnd (t : T)
  | destroyStart
  | destroyShard

variable {T : Type*}

/-- When a step can be taken. A pointer is released once for each time it was returned,
and `cache_destroy` comes when no other call is under way. -/
def enabled (w : World T) : Act T → Prop
  | .get t key _ => w.phase = .serving ∧ w.pc t = .idle ∧ key.length ≠ 0 ∧ key.length < 2 ^ 32
  | .upgrade t => ∃ key now, w.pc t = .upgrading key now
  | .release p => 0 < w.outstanding p
  | .set t key .. => w.phase = .serving ∧ w.pc t = .idle ∧ key.length < 2 ^ 32
  | .invalidate t key _ => w.phase = .serving ∧ w.pc t = .idle ∧ key.length < 2 ^ 32
  | .clearStart t => w.phase = .serving ∧ w.pc t = .idle
  | .clearShard t => ∃ i < shardCount, w.pc t = .clearing i
  | .clearEnd t => w.pc t = .clearing shardCount
  | .destroyStart => w.phase = .serving ∧ ∀ t, w.pc t = .idle
  | .destroyShard => ∃ i < shardCount, w.phase = .closing i

/-- The world after a section: an entry that is gone from the heap was freed. -/
def World.settle (w : World T) (c : CacheS) : World T :=
  { w with
    cache := c
    frees := fun p =>
      if (w.cache.heap p).isSome ∧ (c.heap p).isNone then w.frees p + 1 else w.frees p }

/-- Callers hold `n` pointers to the entry at `p`. -/
def World.hold (w : World T) (p : Ptr) (n : Nat) : World T :=
  { w with outstanding := Function.update w.outstanding p n }

def World.setPc [DecidableEq T] (w : World T) (t : T) (pc : PC) : World T :=
  { w with pc := Function.update w.pc t pc }

/-- One step; no result if it touches a freed entry. -/
def perform [DecidableEq T] (w : World T) : Act T → Option (World T)
  | .get t key now => (getSection w.cache key now).map fun (c, found) =>
    match found with
    | .miss => w.settle c
    | .expired => (w.settle c).setPc t (.upgrading key now)
    | .hit p => (w.settle c).hold p (w.outstanding p + 1)
  | .upgrade t =>
    match w.pc t with
    | .upgrading key now => (expireSection w.cache key now).map fun c => (w.settle c).setPc t .idle
    | _ => none
  | .release p => (entryRefDec w.cache.heap (some p)).map fun heap =>
    (w.settle { w.cache with heap := heap }).hold p (w.outstanding p - 1)
  | .set _ key value ttl now mallocOk allocOk =>
    (cacheSet w.cache key value ttl now mallocOk allocOk).map fun (c, _) => w.settle c
  | .invalidate _ key allocOk => (cacheInvalidate w.cache key allocOk).map w.settle
  | .clearStart t => some (w.setPc t (.clearing 0))
  | .clearShard t =>
    match w.pc t with
    | .clearing i => (clearSection w.cache i).map fun c => (w.settle c).setPc t (.clearing (i + 1))
    | _ => none
  | .clearEnd t => some (w.setPc t .idle)
  | .destroyStart => some { w with phase := .closing 0 }
  | .destroyShard =>
    match w.phase with
    | .closing i => (destroySection w.cache i).map fun c =>
      { w.settle c with phase := .closing (i + 1) }
    | .serving => none

/-- A new cache, before any call. -/
def World.initial (T : Type*) (capacity ttl : Nat) : World T where
  cache := cacheCreate capacity ttl
  pc _ := .idle
  outstanding _ := 0
  frees _ := 0
  phase := .serving

/-- A cache shared by the threads of `T`. -/
def sharedCache (T : Type*) [DecidableEq T] (capacity ttl : Nat) : System (World T) (Act T) where
  init w := w = World.initial T capacity ttl
  step w a w' := enabled w a ∧ perform w a = some w'

/-- The value of a 32-bit `atomic_int`. -/
def intValue (bits : Nat) : Int := if bits < 2 ^ 31 then bits else (bits : Int) - 2 ^ 32

open Classical in
/-- The number of slots and callers that refer to an entry. -/
noncomputable def World.refs (w : World T) (p : Ptr) : Nat :=
  (if Owned w.cache p then 1 else 0) + w.outstanding p

/-- Each reference count is the number of references, and an entry is on the heap as long
as there is one. -/
structure World.Exact (w : World T) : Prop where
  count : ∀ p e, w.cache.heap p = some e → intValue e.refCount = (w.refs p : Int)
  freed : ∀ p, w.cache.heap p = none → ¬ Owned w.cache p ∧ w.outstanding p = 0
  once : ∀ p, p < w.cache.next → w.frees p = if w.cache.heap p = none then 1 else 0

/-- In every run whose steps meet `cond`: the counts are exact, no step touches a freed
entry, and once the cache is destroyed and all pointers are released, every entry is freed. -/
def RefcountSafe (T : Type*) [DecidableEq T] (capacity ttl : Nat)
    (cond : World T → Act T → Prop) : Prop :=
  ∀ w, Reach (sharedCache T capacity ttl) cond w →
    w.Exact ∧ (∀ a, enabled w a → cond w a → ∃ w', perform w a = some w') ∧
    (w.phase = .closing shardCount → (∀ p, w.outstanding p = 0) → ∀ p, w.cache.heap p = none)

/-! ## Counting references -/

/-- What the heap holds for an entry with `n` references. -/
def Counted (x : Option (Nat × EntryData)) (n : Nat) : Prop :=
  n < 2 ^ 31 ∧ x.map Prod.fst = if n = 0 then none else some n

theorem Counted.zero : Counted none 0 := ⟨by decide, rfl⟩

theorem Counted.one (d : EntryData) : Counted (some (1, d)) 1 := ⟨by decide, rfl⟩

theorem Counted.some {x : Option (Nat × EntryData)} {n : Nat} (h : Counted x n) (hn : 0 < n) :
    ∃ d, x = some (n, d) := by
  have hx := h.2
  rw [if_neg (by omega), Option.map_eq_some_iff] at hx
  rcases hx with ⟨y, hy, hyn⟩
  exact ⟨y.2, by rw [hy, ← hyn]⟩

theorem Counted.none_iff {x : Option (Nat × EntryData)} {n : Nat} (h : Counted x n) :
    x = none ↔ n = 0 := by
  constructor
  · intro hx
    by_contra hn
    rcases h.some (Nat.pos_of_ne_zero hn) with ⟨d, hd⟩
    rw [hx] at hd
    cases hd
  · intro hn
    have hx := h.2
    rw [if_pos hn, Option.map_eq_none_iff] at hx
    exact hx

/-- Dropping a reference. -/
theorem Counted.dec {x : Option (Nat × EntryData)} {n : Nat} (h : Counted x n) (hn : 0 < n) :
    Counted (x.bind decRef) (n - 1) := by
  have hlt := h.1
  rcases h.some hn with ⟨d, rfl⟩
  rw [Option.bind_some, decRef]
  by_cases h1 : n = 1
  · subst h1
    exact Counted.zero
  · rw [if_neg h1]
    have hval : (n + 2 ^ 32 - 1) % 2 ^ 32 = n - 1 := by
      rw [show n + 2 ^ 32 - 1 = (n - 1) + 2 ^ 32 by omega, Nat.add_mod_right]
      exact Nat.mod_eq_of_lt (by omega)
    refine ⟨by omega, ?_⟩
    rw [if_neg (by omega), Option.map_some, hval]

/-- Taking one. -/
theorem Counted.inc {x : Option (Nat × EntryData)} {n : Nat} (h : Counted x n) (hn : 0 < n)
    (hmax : n + 1 < 2 ^ 31) :
    Counted (x.map fun y => ((y.1 + 1) % 2 ^ 32, y.2)) (n + 1) := by
  rcases h.some hn with ⟨d, rfl⟩
  refine ⟨hmax, ?_⟩
  rw [if_neg (by omega)]
  simp only [Option.map_some]
  rw [Nat.mod_eq_of_lt (by omega)]

/-! ## The invariant -/

/-- The shards from `k` on are in order, and those before are gone. -/
structure Closing (k : Nat) (c : CacheS) : Prop where
  shard : ∀ i, k ≤ i → i < shardCount → ShardInv (contents c.heap) i (c.shards i)
  gone : ∀ i < k, ∀ p, ¬ Owns (c.shards i) p
  fresh : ∀ p, c.next ≤ p → c.heap p = none

theorem closing_zero (c : CacheS) : Closing 0 c ↔ CacheInv c := by
  constructor
  · intro h
    exact ⟨fun i hi => h.shard i (Nat.zero_le i) hi, h.fresh⟩
  · intro h
    exact ⟨fun i _ hi => h.shard i hi, fun i hi => absurd hi (Nat.not_lt_zero i), h.fresh⟩

/-- How many shards `cache_destroy` has emptied. -/
def Phase.emptied : Phase → Nat
  | .serving => 0
  | .closing i => i

/-- How often each entry has been freed. -/
def World.FreedOnce (w : World T) : Prop :=
  ∀ p, w.frees p = if p < w.cache.next ∧ w.cache.heap p = none then 1 else 0

/-- The invariant of the shared cache. -/
structure World.Inv (w : World T) : Prop where
  counted : ∀ p, Counted (core w.cache.heap p) (w.refs p)
  shards : Closing w.phase.emptied w.cache
  once : w.FreedOnce
  quiet : ∀ i, w.phase = .closing i → ∀ t, w.pc t = .idle
  short : ∀ t key now, w.pc t = .upgrading key now → key.length < 2 ^ 32

theorem refs_eq {w w' : World T} {p : Ptr} (hown : Owned w'.cache p ↔ Owned w.cache p)
    (hout : w'.outstanding p = w.outstanding p) : w'.refs p = w.refs p := by
  unfold World.refs
  rw [hout, propext hown]

/-- With the slots unchanged, the references change as the callers' do. -/
theorem refs_shift {w w' : World T} {p : Ptr} (hown : Owned w'.cache p ↔ Owned w.cache p) :
    w'.refs p + w.outstanding p = w.refs p + w'.outstanding p := by
  unfold World.refs
  rw [propext hown]
  omega

theorem refs_owned {w : World T} {p : Ptr} (h : Owned w.cache p) :
    w.refs p = 1 + w.outstanding p := by
  unfold World.refs
  rw [if_pos h]

theorem refs_not_owned {w : World T} {p : Ptr} (h : ¬ Owned w.cache p) :
    w.refs p = w.outstanding p := by
  unfold World.refs
  rw [if_neg h, Nat.zero_add]

/-- A step that frees or keeps entries, or allocates the next one. -/
theorem World.FreedOnce.settle {w : World T} (h : w.FreedOnce) {c : CacheS}
    (hfresh : ∀ p, w.cache.next ≤ p → w.cache.heap p = none)
    (hmono : ∀ p < w.cache.next, w.cache.heap p = none → c.heap p = none)
    (hnext : w.cache.next ≤ c.next)
    (hnew : ∀ p, w.cache.next ≤ p → p < c.next → c.heap p ≠ none) :
    (w.settle c).FreedOnce := by
  intro p
  have hp := h p
  show (if (w.cache.heap p).isSome ∧ (c.heap p).isNone then w.frees p + 1 else w.frees p) =
    if p < c.next ∧ c.heap p = none then 1 else 0
  by_cases hlt : p < w.cache.next
  · have hlt' : p < c.next := Nat.lt_of_lt_of_le hlt hnext
    cases hb : w.cache.heap p with
    | none =>
      rw [hb] at hp
      simp [hlt', hmono p hlt hb, hp, hlt]
    | some e =>
      rw [hb] at hp
      cases ha : c.heap p with
      | none => simp [hlt', hp]
      | some e' => simp [hp]
  · have hge := Nat.le_of_not_lt hlt
    rw [hfresh p hge] at hp ⊢
    by_cases hlt' : p < c.next
    · simp [hp, hlt, hnew p hge hlt']
    · simp [hp, hlt, hlt']

/-- A step that allocates nothing. -/
theorem World.FreedOnce.settle_kept {w : World T} (h : w.FreedOnce) {c : CacheS}
    (hfresh : ∀ p, w.cache.next ≤ p → w.cache.heap p = none) (hnext : c.next = w.cache.next)
    (hmono : ∀ p, w.cache.heap p = none → c.heap p = none) : (w.settle c).FreedOnce := by
  refine h.settle hfresh (fun p _ => hmono p) (Nat.le_of_eq hnext.symm) ?_
  intro p hp hp'
  rw [hnext] at hp'
  exact absurd hp' (Nat.not_lt.mpr hp)

/-- The invariant gives the exact counts. -/
theorem World.Inv.exact {w : World T} (h : w.Inv) : w.Exact := by
  refine ⟨?_, ?_, ?_⟩
  · intro p e he
    have hc := h.counted p
    have hpos : 0 < w.refs p := by
      apply Nat.pos_of_ne_zero
      intro h0
      have := hc.none_iff.mpr h0
      rw [core_eq_none, he] at this
      cases this
    rcases hc.some hpos with ⟨d, hd⟩
    have hval : e.refCount = w.refs p := by
      rw [core, he, Option.map_some] at hd
      injection hd with hd
      exact congrArg Prod.fst hd
    unfold intValue
    rw [hval, if_pos hc.1]
  · intro p hp
    have h0 := (h.counted p).none_iff.mp (core_eq_none.mpr hp)
    by_cases hown : Owned w.cache p
    · rw [refs_owned hown] at h0
      omega
    · rw [refs_not_owned hown] at h0
      exact ⟨hown, h0⟩
  · intro p hp
    rw [h.once p]
    simp [hp]

/-! ## Steps -/

/-- The invariant after a section that leaves the threads and their pointers alone. -/
theorem World.Inv.settle {w : World T} (h : w.Inv) {c : CacheS}
    (hcounted : ∀ p, Counted (core c.heap p) ((w.settle c).refs p))
    (hshards : Closing w.phase.emptied c)
    (hmono : ∀ p < w.cache.next, w.cache.heap p = none → c.heap p = none)
    (hnext : w.cache.next ≤ c.next)
    (hnew : ∀ p, w.cache.next ≤ p → p < c.next → c.heap p ≠ none) : (w.settle c).Inv :=
  ⟨hcounted, hshards, h.once.settle h.shards.fresh hmono hnext hnew, h.quiet, h.short⟩

/-- A thread that is inside a call keeps `cache_destroy` from starting. -/
theorem World.Inv.serving {w : World T} (h : w.Inv) {t : T} (hpc : w.pc t ≠ .idle) :
    w.phase = .serving := by
  cases hph : w.phase with
  | serving => rfl
  | closing i => exact absurd (h.quiet i hph t) hpc

theorem World.Inv.cacheInv {w : World T} (h : w.Inv) (hph : w.phase = .serving) :
    CacheInv w.cache := by
  have hs := h.shards
  rw [hph] at hs
  exact (closing_zero _).mp hs

theorem closing_of_inv {w : World T} (hph : w.phase = .serving) {c : CacheS} (hc : CacheInv c) :
    Closing w.phase.emptied c := by
  rw [hph]
  exact (closing_zero c).mpr hc

/-- A section that has taken one entry out of its slot. -/
theorem World.Inv.removed {w : World T} (h : w.Inv) (hph : w.phase = .serving) {p : Ptr}
    (hp : Owned w.cache p) {c : CacheS} (hrem : Removed w.cache c p) : (w.settle c).Inv := by
  have hmono : ∀ q, w.cache.heap q = none → c.heap q = none := by
    intro q hq
    rw [← core_eq_none] at hq ⊢
    rw [hrem.core, decAt]
    by_cases hqp : q = p
    · subst hqp
      rw [Function.update_self, hq]
      rfl
    · rw [Function.update_of_ne hqp]
      exact hq
  apply h.settle _ (closing_of_inv hph hrem.inv) (fun q _ => hmono q)
    (Nat.le_of_eq hrem.next.symm)
  · intro q hq hq'
    rw [hrem.next] at hq'
    exact absurd hq' (Nat.not_lt.mpr hq)
  · intro q
    rw [hrem.core, decAt]
    by_cases hqp : q = p
    · subst hqp
      have hnot : ¬ Owned (w.settle c).cache q := fun hown => ((hrem.owned q).mp hown).2 rfl
      have hdec := (h.counted q).dec (by rw [refs_owned hp]; omega)
      rw [refs_owned hp, Nat.add_sub_cancel_left] at hdec
      rw [Function.update_self, refs_not_owned hnot]
      exact hdec
    · have hown : Owned (w.settle c).cache q ↔ Owned w.cache q :=
        ⟨fun hq => ((hrem.owned q).mp hq).1, fun hq => (hrem.owned q).mpr ⟨hq, hqp⟩⟩
      rw [Function.update_of_ne hqp, refs_eq hown rfl]
      exact h.counted q

/-- A section that changes nothing. -/
theorem World.settle_self (w : World T) : w.settle w.cache = w := by
  unfold World.settle
  have hf : (fun p => if (w.cache.heap p).isSome ∧ (w.cache.heap p).isNone then w.frees p + 1
      else w.frees p) = w.frees := by
    funext p
    cases w.cache.heap p <;> simp
  rw [hf]

/-- `cache_set` with its new entry. -/
theorem World.Inv.inserted {w : World T} (h : w.Inv) (hph : w.phase = .serving) {d : EntryData}
    {victim : Option Ptr} (hv : ∀ p, victim = some p → Owned w.cache p) {c : CacheS}
    (hins : Inserted w.cache c d victim) : (w.settle c).Inv := by
  have hinv := h.cacheInv hph
  have hvn : victim ≠ some w.cache.next :=
    fun heq => absurd (hinv.owned_lt (hv _ heq)) (Nat.lt_irrefl _)
  have hnew : core c.heap w.cache.next = some (1, d) := by
    rw [hins.core, dropVictim_of_ne hvn, Function.update_self]
  have hmono : ∀ q < w.cache.next, w.cache.heap q = none → c.heap q = none := by
    intro q hlt hq
    have hvq : victim ≠ some q := by
      intro heq
      rcases hinv.of_owned (hv q heq) with ⟨e, he, -⟩
      rw [contents, hq] at he
      cases he
    rw [← core_eq_none, hins.core, dropVictim_of_ne hvq, Function.update_of_ne (Nat.ne_of_lt hlt),
      core_eq_none]
    exact hq
  apply h.settle _ (closing_of_inv hph hins.inv) hmono
    (by rw [hins.next]; exact Nat.le_succ _)
  · intro q hq hq'
    rw [hins.next] at hq'
    have heq : q = w.cache.next := Nat.le_antisymm (Nat.le_of_lt_succ hq') hq
    rw [heq, ne_eq, ← core_eq_none, hnew]
    exact Option.some_ne_none _
  · intro q
    by_cases hqn : q = w.cache.next
    · -- the new entry: one slot, no caller
      subst hqn
      have hown : Owned (w.settle c).cache w.cache.next := (hins.owned _).mpr (.inl rfl)
      have hfresh := (h.counted w.cache.next).none_iff.mp
        (core_eq_none.mpr (hinv.fresh _ (Nat.le_refl _)))
      have hout : w.outstanding w.cache.next = 0 := by
        unfold World.refs at hfresh
        omega
      rw [refs_owned hown, show (w.settle c).outstanding = w.outstanding from rfl, hout, hnew]
      exact Counted.one d
    · by_cases hvq : victim = some q
      · have hold := hv q hvq
        have hnot : ¬ Owned (w.settle c).cache q := by
          intro hown
          rcases (hins.owned q).mp hown with heq | ⟨-, hne⟩
          · exact hqn heq
          · exact hne hvq
        have hdec := (h.counted q).dec (by rw [refs_owned hold]; omega)
        rw [refs_owned hold, Nat.add_sub_cancel_left] at hdec
        rw [refs_not_owned hnot, hins.core, hvq]
        simp only [dropVictim, decAt]
        rw [Function.update_self, Function.update_of_ne hqn]
        exact hdec
      · have hown : Owned (w.settle c).cache q ↔ Owned w.cache q := by
          rw [show (w.settle c).cache = c from rfl, hins.owned]
          exact ⟨fun hq => hq.elim (fun heq => absurd heq hqn) And.left, fun hq => .inr ⟨hq, hvq⟩⟩
        rw [refs_eq hown rfl, hins.core, dropVictim_of_ne hvq, Function.update_of_ne hqn]
        exact h.counted q

/-- A section that has dropped all references of shard `i`. -/
theorem World.Inv.dropped {w : World T} (h : w.Inv) {i : Nat} (hi : i < shardCount) {c : CacheS}
    (hdrop : ∀ p, Owns (w.cache.shards i) p → core c.heap p = (core w.cache.heap p).bind decRef)
    (hkept : ∀ p, ¬ Owns (w.cache.shards i) p → core c.heap p = core w.cache.heap p)
    (howned : ∀ p, Owned c p ↔ Owned w.cache p ∧ ¬ Owns (w.cache.shards i) p)
    (hnext : c.next = w.cache.next) :
    (∀ p, Counted (core c.heap p) ((w.settle c).refs p)) ∧ (w.settle c).FreedOnce := by
  constructor
  · intro q
    by_cases hq : Owns (w.cache.shards i) q
    · have hold : Owned w.cache q := ⟨i, hi, hq⟩
      have hnot : ¬ Owned (w.settle c).cache q := fun hown => ((howned q).mp hown).2 hq
      have hdec := (h.counted q).dec (by rw [refs_owned hold]; omega)
      rw [refs_owned hold, Nat.add_sub_cancel_left] at hdec
      rw [refs_not_owned hnot, hdrop q hq]
      exact hdec
    · have hown : Owned (w.settle c).cache q ↔ Owned w.cache q :=
        ⟨fun hq' => ((howned q).mp hq').1, fun hq' => (howned q).mpr ⟨hq', hq⟩⟩
      rw [refs_eq hown rfl, hkept q hq]
      exact h.counted q
  · refine h.once.settle_kept h.shards.fresh hnext ?_
    intro q hq
    rw [← core_eq_none] at hq ⊢
    by_cases hown : Owns (w.cache.shards i) q
    · rw [hdrop q hown, hq]
      rfl
    · rw [hkept q hown]
      exact hq

/-- The section of `cache_destroy` for shard `i`. -/
theorem destroySection_spec {c : CacheS} {i : Nat} (hc : Closing i c) (hi : i < shardCount) :
    ∃ c', destroySection c i = some c' ∧ Closing (i + 1) c' ∧
      (∀ p, Owns (c.shards i) p → core c'.heap p = (core c.heap p).bind decRef) ∧
      (∀ p, ¬ Owns (c.shards i) p → core c'.heap p = core c.heap p) ∧
      (∀ p, Owned c' p ↔ Owned c p ∧ ¬ Owns (c.shards i) p) ∧ c'.next = c.next := by
  have hs := hc.shard i (Nat.le_refl i) hi
  rcases refDecAll_spec hs with ⟨heap, hrun, hdrop, hkept⟩
  unfold destroySection
  rw [hrun, Option.map_some]
  have hnone : ∀ p, ¬ Owns ({ c.shards i with tags := fun _ => tagEmpty, entries := fun _ => none }
      : Shard) p := by
    intro p hp
    rcases hp with ⟨j, -, hlive, -⟩
    rw [liveTag_tagEmpty] at hlive
    cases hlive
  -- an entry has one owner, so the shards still to come keep theirs
  have hother : ∀ j < shardCount, j ≠ i → ∀ p, Owns (c.shards j) p → ¬ Owns (c.shards i) p := by
    intro j hj hji p hp hp'
    rcases Nat.lt_or_ge j i with hlt | hge
    · exact hc.gone j hlt p hp
    · exact hji ((hc.shard j hge hj).owner_unique hs hp hp')
  refine ⟨_, rfl, ⟨?_, ?_, ?_⟩, hdrop, hkept, ?_, rfl⟩
  · intro j hij hj
    have hji : j ≠ i := by omega
    have h : ShardInv (contents heap) j (c.shards j) := (hc.shard j (by omega) hj).frame
      fun p hp => contents_congr (hkept p (hother j hj hji p hp))
    simpa [CacheS.put, hji] using h
  · intro j hj p hp
    by_cases hji : j = i
    · rw [hji] at hp
      exact hnone p (by simpa [CacheS.put] using hp)
    · exact hc.gone j (by omega) p (by simpa [CacheS.put, hji] using hp)
  · intro p hp
    show heap p = none
    rw [← core_eq_none]
    by_cases hown : Owns (c.shards i) p
    · rw [hdrop p hown, core_eq_none.mpr (hc.fresh p hp)]
      rfl
    · rw [hkept p hown]
      exact core_eq_none.mpr (hc.fresh p hp)
  · exact owned_put_none hi heap hnone hother

/-- `cache_get` returns a pointer to an entry that has room for one more reference. -/
theorem World.Inv.hit {w : World T} (h : w.Inv) (hph : w.phase = .serving) {p : Ptr}
    (hp : Owned w.cache p) (hmax : w.outstanding p + 2 < 2 ^ 31) {c : CacheS}
    (hcore : core c.heap = incAt (core w.cache.heap) p) (hshards : c.shards = w.cache.shards)
    (hnext : c.next = w.cache.next) : ((w.settle c).hold p (w.outstanding p + 1)).Inv := by
  have hown : ∀ q, Owned c q ↔ Owned w.cache q := by
    intro q
    unfold Owned
    rw [hshards]
  have hinv := (h.cacheInv hph).hit hcore hshards hnext
  refine ⟨?_, closing_of_inv hph hinv, ?_, h.quiet, h.short⟩
  · intro q
    show Counted (core c.heap q) _
    rw [hcore, incAt]
    by_cases hqp : q = p
    · subst hqp
      have hinc := (h.counted q).inc (by rw [refs_owned hp]; omega) (by rw [refs_owned hp]; omega)
      have hheld : ((w.settle c).hold q (w.outstanding q + 1)).outstanding q =
          w.outstanding q + 1 := Function.update_self ..
      have howned : Owned ((w.settle c).hold q (w.outstanding q + 1)).cache q ↔
        Owned w.cache q := hown q
      have hshift := refs_shift howned
      have hrefs : ((w.settle c).hold q (w.outstanding q + 1)).refs q = w.refs q + 1 := by omega
      rw [Function.update_self, hrefs]
      exact hinc
    · have hrefs : ((w.settle c).hold p (w.outstanding p + 1)).refs q = w.refs q :=
        refs_eq (hown q) (Function.update_of_ne hqp _ _)
      rw [Function.update_of_ne hqp, hrefs]
      exact h.counted q
  · refine h.once.settle_kept h.shards.fresh hnext ?_
    intro q hq
    rw [← core_eq_none] at hq ⊢
    rw [hcore, incAt]
    by_cases hqp : q = p
    · subst hqp
      rw [Function.update_self, hq]
      rfl
    · rw [Function.update_of_ne hqp]
      exact hq

/-- `cache_release`: an entry that a slot still points to is not freed. -/
theorem World.Inv.release {w : World T} (h : w.Inv) {p : Ptr} (hout : 0 < w.outstanding p) :
    ∃ heap, entryRefDec w.cache.heap (some p) = some heap ∧
      ((w.settle { w.cache with heap := heap }).hold p (w.outstanding p - 1)).Inv := by
  have hpos : 0 < w.refs p := by
    unfold World.refs
    omega
  rcases (h.counted p).some hpos with ⟨d, hd⟩
  have halloc : ∃ e, w.cache.heap p = some e := by
    apply Option.ne_none_iff_exists'.mp
    rw [ne_eq, ← core_eq_none, hd]
    exact nofun
  rcases halloc with ⟨e, he⟩
  rcases entryRefDec_spec he with ⟨heap, hdec, hcore⟩
  -- the content of an owned entry survives
  have hcont : ∀ q, Owned w.cache q → contents heap q = contents w.cache.heap q := by
    intro q hq
    by_cases hqp : q = p
    · subst hqp
      rw [contents_eq_core, contents_eq_core, hcore, decAt, Function.update_self, hd,
        Option.bind_some, decRef, if_neg (by rw [refs_owned hq]; omega), Option.map_some,
        Option.map_some]
    · exact contents_decAt hcore hqp
  have hmono : ∀ q, w.cache.heap q = none → heap q = none := by
    intro q hq
    rw [← core_eq_none] at hq ⊢
    rw [hcore, decAt]
    by_cases hqp : q = p
    · subst hqp
      rw [Function.update_self, hq]
      rfl
    · rw [Function.update_of_ne hqp]
      exact hq
  refine ⟨heap, hdec, ?_, ⟨?_, h.shards.gone, ?_⟩, ?_, h.quiet, h.short⟩
  · intro q
    show Counted (core heap q) _
    rw [hcore, decAt]
    by_cases hqp : q = p
    · subst hqp
      have hdec' := (h.counted q).dec hpos
      have howned : Owned ((w.settle { w.cache with heap := heap }).hold q
        (w.outstanding q - 1)).cache q ↔ Owned w.cache q := Iff.rfl
      have hshift := refs_shift howned
      have hheld : ((w.settle { w.cache with heap := heap }).hold q
          (w.outstanding q - 1)).outstanding q = w.outstanding q - 1 := Function.update_self ..
      have hrefs : ((w.settle { w.cache with heap := heap }).hold q (w.outstanding q - 1)).refs q =
          w.refs q - 1 := by omega
      rw [Function.update_self, hrefs]
      exact hdec'
    · have hrefs : ((w.settle { w.cache with heap := heap }).hold p (w.outstanding p - 1)).refs q =
          w.refs q := refs_eq Iff.rfl (Function.update_of_ne hqp _ _)
      rw [Function.update_of_ne hqp, hrefs]
      exact h.counted q
  · intro i hi hi'
    apply (h.shards.shard i hi hi').frame
    intro q hq
    exact hcont q ⟨i, hi', hq⟩
  · intro q hq
    exact hmono q (h.shards.fresh q hq)
  · exact h.once.settle_kept (c := { w.cache with heap := heap }) h.shards.fresh rfl hmono

/-- The reference counter of the entry that a `cache_get` finds has room for one more: its
callers hold fewer than `INT_MAX - 1` pointers to it. -/
def BoundedGet (w : World T) : Act T → Prop
  | .get _ key _ => ∀ p d, Owned w.cache p → contents w.cache.heap p = some d → d.key = key →
      w.outstanding p + 2 < 2 ^ 31
  | _ => True

section Run

variable [DecidableEq T]

theorem World.Inv.setPc {w : World T} (h : w.Inv) (hph : w.phase = .serving) (t : T) {pc : PC}
    (hshort : ∀ key now, pc = .upgrading key now → key.length < 2 ^ 32) : (w.setPc t pc).Inv := by
  refine ⟨h.counted, h.shards, h.once, ?_, ?_⟩
  · intro i hi
    rw [show (w.setPc t pc).phase = w.phase from rfl, hph] at hi
    cases hi
  · intro u key now hu
    by_cases hut : u = t
    · subst hut
      exact hshort key now (by simpa [World.setPc] using hu)
    · exact h.short u key now (by simpa [World.setPc, hut] using hu)

/-- Every step that can be taken is taken, without touching a freed entry, and keeps the
invariant. -/
theorem step_inv {w : World T} (h : w.Inv) {a : Act T} (ha : enabled w a) (hc : BoundedGet w a) :
    ∃ w', perform w a = some w' ∧ w'.Inv := by
  cases a with
  | get t key now =>
    rcases ha with ⟨hph, hpc, -, hlen⟩
    have hinv := h.cacheInv hph
    rcases getSection_spec hinv hlen now with ⟨c, found, hrun, hgot⟩
    simp only [perform, hrun, Option.map_some]
    -- only a hit changes the world: a miss and an expired entry leave the heap as it was
    cases hgot with
    | miss heq _ =>
      subst heq
      exact ⟨_, rfl, by rw [w.settle_self]; exact h⟩
    | expired heq _ _ _ =>
      subst heq
      refine ⟨_, rfl, ?_⟩
      simp only [w.settle_self]
      exact h.setPc hph t (fun k n hk => by cases hk; exact hlen)
    | @hit p d hp hd hk _ hcore hshards hnext _ =>
      exact ⟨_, rfl, h.hit hph hp (hc p d hp hd hk) hcore hshards hnext⟩
  | upgrade t =>
    rcases ha with ⟨key, now, hpc⟩
    have hph := h.serving (t := t) (by rw [hpc]; rintro ⟨⟩)
    rcases expireSection_spec (h.cacheInv hph) (h.short t key now hpc) now with ⟨c, hrun, heff⟩
    simp only [perform, hpc, hrun, Option.map_some]
    refine ⟨_, rfl, ?_⟩
    have hsettled : (w.settle c).Inv := by
      rcases heff with heq | ⟨p, d, hp, -, -, -, hrem⟩
      · rw [heq, w.settle_self]
        exact h
      · exact h.removed hph hp hrem
    exact hsettled.setPc hph t (by rintro _ _ ⟨⟩)
  | release p =>
    rcases h.release ha with ⟨heap, hrun, hinv⟩
    simp only [perform, hrun, Option.map_some]
    exact ⟨_, rfl, hinv⟩
  | set t key value ttl now mallocOk allocOk =>
    rcases ha with ⟨hph, -, hlen⟩
    simp only [perform, cacheSet]
    by_cases hrej : key.length = 0 ∨ value.length = 0 ∨ mallocOk = false
    · simp only [if_pos hrej, Option.map_some]
      exact ⟨_, rfl, by rw [w.settle_self]; exact h⟩
    · rcases setSection_spec (h.cacheInv hph) hlen value ttl now allocOk with
        ⟨c, victim, hrun, hv, hins⟩
      simp only [if_neg hrej, hrun, Option.map_some]
      refine ⟨_, rfl, h.inserted hph ?_ hins⟩
      -- the entry thrown out, an old one or a victim of the clock, was owned by a slot
      intro p hp
      cases hv with
      | none => cases hp
      | old hown => cases hp; exact hown
      | evicted hown => cases hp; exact hown
  | invalidate t key allocOk =>
    rcases ha with ⟨hph, -, hlen⟩
    rcases invalidateSection_spec (h.cacheInv hph) hlen allocOk with ⟨c, hrun, heff⟩
    simp only [perform, cacheInvalidate, hrun, Option.map_some]
    refine ⟨_, rfl, ?_⟩
    rcases heff with ⟨heq, -⟩ | ⟨p, d, hp, -, -, hrem⟩
    · rw [heq, w.settle_self]
      exact h
    · exact h.removed hph hp hrem
  | clearStart t => exact ⟨_, rfl, h.setPc ha.1 t (by rintro _ _ ⟨⟩)⟩
  | clearShard t =>
    rcases ha with ⟨i, hi, hpc⟩
    have hph := h.serving (t := t) (by rw [hpc]; rintro ⟨⟩)
    rcases clearSection_spec (h.cacheInv hph) hi with ⟨c, hrun, hcl⟩
    simp only [perform, hpc, hrun, Option.map_some]
    refine ⟨_, rfl, ?_⟩
    rcases h.dropped hi hcl.dropped hcl.kept hcl.owned hcl.next with ⟨hcounted, honce⟩
    have hsettled : (w.settle c).Inv :=
      ⟨hcounted, closing_of_inv hph hcl.inv, honce, h.quiet, h.short⟩
    exact hsettled.setPc hph t (by rintro _ _ ⟨⟩)
  | clearEnd t =>
    have hph := h.serving (t := t) (by rw [show w.pc t = _ from ha]; rintro ⟨⟩)
    exact ⟨_, rfl, h.setPc hph t (by rintro _ _ ⟨⟩)⟩
  | destroyStart =>
    rcases ha with ⟨hph, hidle⟩
    refine ⟨_, rfl, h.counted, ?_, h.once, fun _ _ => hidle, h.short⟩
    exact (closing_zero _).mpr (h.cacheInv hph)
  | destroyShard =>
    rcases ha with ⟨i, hi, hph⟩
    -- once `cache_destroy` is under way the shards below `i` are gone already
    have hcl : Closing i w.cache := by
      have hs := h.shards
      rw [hph] at hs
      exact hs
    rcases destroySection_spec hcl hi with ⟨c, hrun, hcl', hdrop, hkept, howned, hnext⟩
    simp only [perform, hph, hrun, Option.map_some]
    rcases h.dropped hi hdrop hkept howned hnext with ⟨hcounted, honce⟩
    exact ⟨_, rfl, hcounted, hcl', honce, fun _ _ => h.quiet i hph, h.short⟩

theorem init_inv {capacity : Nat} (hcap : capacity < 2 ^ 64) (ttl : Nat) {w : World T}
    (hw : (sharedCache T capacity ttl).init w) : w.Inv := by
  rcases create_spec hcap ttl with ⟨hinv, hempty⟩
  rw [show w = _ from hw]
  refine ⟨?_, (closing_zero _).mpr hinv, ?_, nofun, nofun⟩
  · intro p
    rw [refs_not_owned (hempty p)]
    exact Counted.zero
  · intro p
    symm
    apply if_neg
    intro hp
    exact Nat.not_lt_zero p hp.1

/-- In every run in which no `cache_get` finds an entry with `INT_MAX - 1` outstanding
pointers, the reference counts are exact, no step touches a freed entry, every entry is
freed once and only when nobody refers to it, and after `cache_destroy` and the last
`cache_release` all entries are freed. -/
theorem refcountSafe_of_bounded (capacity ttl : Nat) (hcap : capacity < 2 ^ 64) :
    RefcountSafe T capacity ttl BoundedGet := by
  intro w hreach
  have hinv : w.Inv := by
    apply hreach.invariant World.Inv (fun w hw => init_inv hcap ttl hw)
    intro w a w' hw hc hstep
    rcases step_inv hw hstep.1 hc with ⟨w'', hrun, hw''⟩
    rw [hstep.2] at hrun
    cases hrun
    exact hw''
  refine ⟨hinv.exact, ?_, ?_⟩
  · intro a ha hc
    rcases step_inv hinv ha hc with ⟨w', hrun, -⟩
    exact ⟨w', hrun⟩
  · intro hph hout p
    have hgone : ¬ Owned w.cache p := by
      intro hown
      rcases hown with ⟨i, hi, hown⟩
      have hcl := hinv.shards
      rw [hph] at hcl
      exact hcl.gone i hi p hown
    have hrefs : w.refs p = 0 := by
      rw [refs_not_owned hgone]
      exact hout p
    exact core_eq_none.mp ((hinv.counted p).none_iff.mpr hrefs)

end Run

theorem refcountSafe_of_bounded_two_threads : RefcountSafe Bool 1000 60 BoundedGet :=
  refcountSafe_of_bounded 1000 60 (by decide)

/-! ## The counter wraps around -/

/-- One entry in a shared cache, with `n` pointers to it outstanding; the counter holds
what is left of `n + 1`. -/
structure Handed (n : Nat) (w : World Unit) : Prop where
  reach : Reach (sharedCache Unit 32 300) AnyStep w
  serving : w.phase = .serving
  idle : w.pc () = .idle
  inv : CacheInv w.cache
  owned : Owned w.cache 0
  core : ∃ d, core w.cache.heap 0 = some ((n + 1) % 2 ^ 32, d) ∧ d.key = [97] ∧ 0 < d.expiresAt
  outstanding : w.outstanding 0 = n

/-- After one `cache_set`. -/
theorem handed_zero : ∃ w, Handed 0 w := by
  have hkey : ([97] : Key).length < 2 ^ 32 := by decide
  have hcap : 32 < 2 ^ 64 := by decide
  rcases create_spec hcap 300 with ⟨hinv, hempty⟩
  rcases setSection_spec hinv hkey [1] 0 0 true with
    ⟨c, victim, hrun, hv, hins⟩
  have hnone : victim = none := by
    cases hv with
    | none => rfl
    | old hown => exact absurd hown (hempty _)
    | evicted hown => exact absurd hown (hempty _)
  subst hnone
  have hset : cacheSet (cacheCreate 32 300) [97] [1] 0 0 true true = some (c, true) := by
    unfold cacheSet
    rw [if_neg (by decide)]
    exact hrun
  have hstep : perform (World.initial Unit 32 300) (.set () [97] [1] 0 0 true true) =
      some ((World.initial Unit 32 300).settle c) := by
    simp only [perform, World.initial, hset, Option.map_some]
  have hen : enabled (World.initial Unit 32 300) (.set () [97] [1] 0 0 true true) :=
    ⟨rfl, rfl, by decide⟩
  have hcore : core c.heap 0 = some (1, setData (cacheCreate 32 300) [97] [1] 0 0) := by
    rw [hins.core]
    show Function.update (core (cacheCreate 32 300).heap) 0 _ 0 = _
    rw [Function.update_self]
  have hreach : Reach (sharedCache Unit 32 300) AnyStep ((World.initial Unit 32 300).settle c) :=
    .step (.init rfl) trivial ⟨hen, hstep⟩
  exact ⟨_, hreach, rfl, rfl, hins.inv, (hins.owned _).mpr (.inl rfl),
    ⟨_, hcore, rfl, by decide⟩, rfl⟩

/-- One more `cache_get`. -/
theorem Handed.get {n : Nat} {w : World Unit} (h : Handed n w) : ∃ w', Handed (n + 1) w' := by
  rcases h.core with ⟨d, hcore, hkey, hexp⟩
  have hd : contents w.cache.heap 0 = some d := by
    rw [contents_eq_core, hcore]
    rfl
  have hunique : ∀ p e, Owned w.cache p → contents w.cache.heap p = some e → e.key = [97] →
      p = 0 := fun p e hp he hk => h.inv.owned_unique hp h.owned he hd (by rw [hk, hkey])
  have hshort : ([97] : Key).length < 2 ^ 32 := by decide
  rcases getSection_spec h.inv hshort 0 with ⟨c, found, hrun, hgot⟩
  cases hgot with
  | miss _ hno => exact absurd hkey (hno d ⟨0, h.owned, hd⟩)
  | @expired e _ he hk hle =>
    rcases he with ⟨p, hp, hpe⟩
    rw [hunique p e hp hpe hk, hd] at hpe
    cases hpe
    omega
  | @hit p e hp hpe hk _ hcore' hshards hnext _ =>
    have hp0 := hunique p e hp hpe hk
    subst hp0
    have hstep : perform w (.get () [97] 0) = some ((w.settle c).hold 0 (w.outstanding 0 + 1)) := by
      simp only [perform, hrun, Option.map_some]
    have hen : enabled w (.get () [97] 0) := ⟨h.serving, h.idle, by decide, by decide⟩
    refine ⟨_, h.reach.step trivial ⟨hen, hstep⟩, h.serving, h.idle,
      h.inv.hit hcore' hshards hnext, ?_, ⟨d, ?_, hkey, hexp⟩, ?_⟩
    · show Owned c 0
      unfold Owned
      rw [hshards]
      exact h.owned
    · show Cache.core c.heap 0 = _
      rw [hcore', incAt, Function.update_self, hcore, Option.map_some, Nat.mod_add_mod]
    · show Function.update w.outstanding 0 (w.outstanding 0 + 1) 0 = n + 1
      rw [Function.update_self, h.outstanding]

theorem handed (n : Nat) : ∃ w, Handed n w := by
  induction n with
  | zero => exact handed_zero
  | succ n ih =>
    rcases ih with ⟨w, h⟩
    exact h.get

/-- After `2 ^ 32` calls of `cache_get` that are not released, the counter is back at one:
the next `cache_release` frees the entry, with a slot and all the other callers still
referring to it. -/
theorem refcount_wraps : ¬ RefcountSafe Unit 32 300 AnyStep := by
  intro hsafe
  rcases handed (2 ^ 32) with ⟨w, h⟩
  rcases h.core with ⟨d, hcore, -, -⟩
  rw [show (2 ^ 32 + 1) % 2 ^ 32 = 1 from rfl] at hcore
  have halloc : ∃ e, w.cache.heap 0 = some e := by
    apply Option.ne_none_iff_exists'.mp
    rw [ne_eq, ← core_eq_none, hcore]
    exact nofun
  rcases halloc with ⟨e, he⟩
  rcases entryRefDec_spec he with ⟨heap, hdec, hcore'⟩
  have hstep : perform w (.release 0) =
      some ((w.settle { w.cache with heap := heap }).hold 0 (w.outstanding 0 - 1)) := by
    simp only [perform, hdec, Option.map_some]
  have hen : enabled w (.release 0) := by
    show 0 < w.outstanding 0
    rw [h.outstanding]
    decide
  have hfreed : heap 0 = none := by
    rw [← core_eq_none, hcore', decAt, Function.update_self, hcore]
    rfl
  have hexact := (hsafe _ (h.reach.step trivial ⟨hen, hstep⟩)).1
  exact (hexact.freed 0 hfreed).1 h.owned

end Solidc.Cache
