import Mathlib.Data.List.Basic
import Mathlib.Logic.Function.Basic
import Solidc.Lib.Bits

/-! # The sharded cache (`cache.c`)

Entries live on a heap: an entry is found through a pointer, and a freed entry is not
there any more, so a function that touches one has no result (`none`), and neither has
one that dereferences `NULL` or never leaves its loop. Each section that runs under a
shard's lock is one function on the whole cache; the public calls are put together from
them.

A key is a list of bytes, which stands for the pointer and the length that callers pass.
`allocOk` arguments say whether an allocation of the call succeeds. The bytes between the
key and the value of an entry (the terminator and the back pointer) are left out: a value
pointer and its entry are identified.
-/

namespace Solidc.Cache

open CLib

/-- `TAG_EMPTY`. -/
def tagEmpty : Nat := 0x80

/-- `TAG_DELETED`. -/
def tagDeleted : Nat := 0x40

/-- `TAG_CONTROL_MASK`. -/
def tagControlMask : Nat := 0xC0

/-- `CACHE_SHARD_COUNT`. -/
def shardCount : Nat := 32

/-- `CACHE_DEFAULT_TTL`. -/
def defaultTtl : Nat := 300

abbrev Key := List UInt8

/-- Addresses of entries. Every allocation has its own. -/
abbrev Ptr := Nat

/-- The fields of `cache_entry_t` that are written once. `value_len` is the length of
the value. -/
structure EntryData where
  hash : Nat
  keyLen : Nat
  expiresAt : Int
  key : Key
  value : List UInt8

/-- `cache_entry_t`. The reference count is a 32-bit word. -/
structure Entry where
  refCount : Nat
  clockBit : Nat
  data : EntryData

abbrev Heap := Ptr → Option Entry

/-- `aligned_cache_shard_t`, less its lock. -/
structure Shard where
  tags : Nat → Nat
  entries : Nat → Option Ptr
  bucketCount : Nat
  size : Nat
  capacity : Nat
  tombstoneCount : Nat
  clockHand : Nat

/-- `struct cache_s` and the heap. `next` is the address of the next allocation. -/
structure CacheS where
  heap : Heap
  next : Ptr
  shards : Nat → Shard
  ttl : Nat

/-! ## Utility functions -/

/-- `next_power_of_2`. -/
def nextPowerOf2 (n : Nat) : Nat :=
  if n ≠ 0 ∧ n &&& (n - 1) = 0 then n
  else (smear64 ((n + 2 ^ 64 - 1) % 2 ^ 64) + 1) % 2 ^ 64

/-- `hash_key`: FNV-1a, keeping clear of 0 and 1. -/
def hashKey (key : Key) : Nat :=
  let hash := key.foldl (fun hash b => (hash ^^^ b.toNat) * 16777619 % 2 ^ 32) 2166136261
  if hash < 2 then hash + 2 else hash

/-- `get_shard_idx`. -/
def getShardIdx (hash : Nat) : Nat := (hash ^^^ (hash >>> 16)) &&& (shardCount - 1)

/-- `make_tag`. -/
def makeTag (hash : Nat) : Nat := (hash >>> 18) &&& 0x3F

/-- Load an entry through a pointer. -/
def deref (heap : Heap) (p : Option Ptr) : Option Entry := p.bind heap

/-- `entry_ref_inc`. -/
def entryRefInc (heap : Heap) (p : Option Ptr) : Option Heap :=
  match p with
  | none => some heap
  | some p => (heap p).map fun e =>
    Function.update heap p (some { e with refCount := (e.refCount + 1) % 2 ^ 32 })

/-- `entry_ref_dec`: the entry is freed when the count was one. -/
def entryRefDec (heap : Heap) (p : Option Ptr) : Option Heap :=
  match p with
  | none => some heap
  | some p => (heap p).map fun e =>
    if e.refCount = 1 then Function.update heap p none
    else Function.update heap p
      (some { e with refCount := (e.refCount + 2 ^ 32 - 1) % 2 ^ 32 })

/-- A store to `clock_bit`. -/
def setClockBit (heap : Heap) (p : Option Ptr) (bit : Nat) : Option Heap :=
  match p with
  | none => none
  | some p => (heap p).map fun e => Function.update heap p (some { e with clockBit := bit })

/-- The 64-bit word at the start of an entry, `hash` in its low half. -/
def entryMeta (d : EntryData) : Nat := (d.keyLen <<< 32) ||| d.hash

/-- `target_meta`. -/
def targetMeta (hash klen : Nat) : Nat := ((klen <<< 32) % 2 ^ 64) ||| hash

/-- `keys_equal`: its branches all compare the first `len` bytes. -/
def keysEqual (k₁ k₂ : Key) (len : Nat) : Bool := k₁.take len == k₂.take len

/-! ## Probing, compaction and eviction -/

/-- The loop of `find_slot`. -/
def findSlotLoop (heap : Heap) (s : Shard) (hash : Nat) (key : Key) (targetTag : Nat) :
    Nat → Nat → Option Nat → Option (Nat × Bool)
  | 0, idx, firstTombstone => some (firstTombstone.getD idx, false)
  | fuel + 1, idx, firstTombstone =>
    if s.tags idx = targetTag then
      match deref heap (s.entries idx) with
      | none => none
      | some entry =>
        if entryMeta entry.data = targetMeta hash key.length ∧
            keysEqual entry.data.key key key.length then some (idx, true)
        else findSlotLoop heap s hash key targetTag fuel ((idx + 1) &&& (s.bucketCount - 1))
          firstTombstone
    else if s.tags idx &&& tagEmpty ≠ 0 then some (firstTombstone.getD idx, false)
    else if s.tags idx &&& tagDeleted ≠ 0 then
      findSlotLoop heap s hash key targetTag fuel ((idx + 1) &&& (s.bucketCount - 1))
        (firstTombstone.or (some idx))
    else findSlotLoop heap s hash key targetTag fuel ((idx + 1) &&& (s.bucketCount - 1))
      firstTombstone

/-- `find_slot`: a slot, and whether it holds the key. -/
def findSlot (heap : Heap) (s : Shard) (hash : Nat) (key : Key) (targetTag : Nat) :
    Option (Nat × Bool) :=
  findSlotLoop heap s hash key targetTag s.bucketCount (hash &&& (s.bucketCount - 1)) none

/-- `while (!(new_tags[idx] & TAG_EMPTY)) idx = (idx + 1) & mask;` -/
def probeEmpty (tags : Nat → Nat) (mask : Nat) : Nat → Nat → Option Nat
  | 0, _ => none
  | fuel + 1, idx =>
    if tags idx &&& tagEmpty = 0 then probeEmpty tags mask fuel ((idx + 1) &&& mask)
    else some idx

/-- Write a tag and a pointer into a slot. -/
def Shard.put (s : Shard) (idx tag : Nat) (p : Option Ptr) : Shard :=
  { s with tags := Function.update s.tags idx tag, entries := Function.update s.entries idx p }

/-- The new arrays of `compact_shard` after the first `i` old slots. -/
def compactLoop (heap : Heap) (s : Shard) : Nat → Option Shard
  | 0 => some { s with tags := fun _ => tagEmpty, entries := fun _ => none }
  | i + 1 =>
    (compactLoop heap s i).bind fun t =>
    if s.tags i &&& tagControlMask ≠ 0 then some t
    else (deref heap (s.entries i)).bind fun entry =>
      (probeEmpty t.tags (s.bucketCount - 1) s.bucketCount
        (entry.data.hash &&& (s.bucketCount - 1))).map fun idx =>
        t.put idx (makeTag entry.data.hash) (s.entries i)

/-- `compact_shard`: without memory for the new arrays it does nothing. -/
def compactShard (heap : Heap) (s : Shard) (allocOk : Bool) : Option Shard :=
  if allocOk then
    (compactLoop heap s s.bucketCount).map fun t => { t with tombstoneCount := 0, clockHand := 0 }
  else some s

/-- The test before both calls of `compact_shard`. -/
def compactIfCrowded (heap : Heap) (s : Shard) (allocOk : Bool) : Option Shard :=
  if s.bucketCount * 3 / 4 < s.tombstoneCount then compactShard heap s allocOk else some s

/-- Turn a live slot into a tombstone. -/
def Shard.tombstone (s : Shard) (idx : Nat) : Shard :=
  { s.put idx tagDeleted none with
    size := s.size - 1, tombstoneCount := s.tombstoneCount + 1 }

/-- `shard->clock_hand = (shard->clock_hand + 1) & mask;` -/
def Shard.advance (s : Shard) : Shard :=
  { s with clockHand := (s.clockHand + 1) &&& (s.bucketCount - 1) }

/-- The second loop of `clock_evict`: the first live slot goes. -/
def evictAny : Nat → Heap → Shard → Option (Heap × Shard × Bool)
  | 0, heap, s => some (heap, s, false)
  | fuel + 1, heap, s =>
    if s.tags s.clockHand &&& tagControlMask = 0 then
      (entryRefDec heap (s.entries s.clockHand)).map fun heap =>
        (heap, s.advance.tombstone s.clockHand, true)
    else evictAny fuel heap s.advance

/-- The first loop of `clock_evict`: the first live slot whose bit is clear goes, and
the bits passed are cleared. -/
def evictScan : Nat → Heap → Shard → Option (Heap × Shard × Bool)
  | 0, heap, s => evictAny s.bucketCount heap s
  | fuel + 1, heap, s =>
    if s.tags s.clockHand &&& tagControlMask ≠ 0 then evictScan fuel heap s.advance
    else (deref heap (s.entries s.clockHand)).bind fun entry =>
      if entry.clockBit = 0 then
        (entryRefDec heap (s.entries s.clockHand)).map fun heap =>
          (heap, s.advance.tombstone s.clockHand, true)
      else (setClockBit heap (s.entries s.clockHand) 0).bind fun heap =>
        evictScan fuel heap s.advance

/-- `clock_evict`. -/
def clockEvict (heap : Heap) (s : Shard) : Option (Heap × Shard × Bool) :=
  evictScan s.bucketCount heap s

/-! ## Locked sections -/

/-- The shard of a key. -/
def shardOf (key : Key) : Nat := getShardIdx (hashKey key)

/-- The cache after a section has changed the heap and one shard. -/
def CacheS.put (c : CacheS) (i : Nat) (heap : Heap) (s : Shard) : CacheS :=
  { c with heap := heap, shards := Function.update c.shards i s }

/-- What the read-locked section of `cache_get` ends with. -/
inductive Found where
  | miss
  | expired
  | hit (p : Ptr)

/-- `cache_get` up to the release of the read lock. -/
def getSection (c : CacheS) (key : Key) (now : Int) : Option (CacheS × Found) :=
  let s := c.shards (shardOf key)
  (findSlot c.heap s (hashKey key) key (makeTag (hashKey key))).bind fun (idx, found) =>
  if found then
    (s.entries idx).bind fun p => (c.heap p).bind fun entry =>
    if entry.data.expiresAt ≤ now then some (c, .expired)
    else
      (if entry.clockBit = 0 then setClockBit c.heap (some p) 1 else some c.heap).bind fun heap =>
      (entryRefInc heap (some p)).map fun heap => ({ c with heap := heap }, .hit p)
  else some (c, .miss)

/-- The write-locked section of `cache_get` that removes an expired entry. -/
def expireSection (c : CacheS) (key : Key) (now : Int) : Option CacheS :=
  let s := c.shards (shardOf key)
  (findSlot c.heap s (hashKey key) key (makeTag (hashKey key))).bind fun (idx, found) =>
  if found then
    (deref c.heap (s.entries idx)).bind fun entry =>
    if entry.data.expiresAt ≤ now then
      (entryRefDec c.heap (s.entries idx)).map fun heap =>
        c.put (shardOf key) heap (s.tombstone idx)
    else some c
  else some c

/-- Storing an entry in a slot that `find_slot` returned for an absent key. -/
def Shard.insert (s : Shard) (idx tag : Nat) (p : Ptr) : Shard :=
  { s.put idx tag (some p) with
    tombstoneCount := if s.tags idx = tagDeleted then s.tombstoneCount - 1 else s.tombstoneCount
    size := s.size + 1 }

/-- The write-locked section of `cache_set`, with the new entry at `p`. -/
def setSection (c : CacheS) (key : Key) (p : Ptr) (allocOk : Bool) : Option (CacheS × Bool) :=
  (compactIfCrowded c.heap (c.shards (shardOf key)) allocOk).bind fun s =>
  (findSlot c.heap s (hashKey key) key (makeTag (hashKey key))).bind fun (idx, found) =>
  if found then
    (entryRefDec c.heap (s.entries idx)).map fun heap =>
      (c.put (shardOf key) heap { s with entries := Function.update s.entries idx (some p) }, true)
  else
    (if s.capacity ≤ s.size then clockEvict c.heap s else some (c.heap, s, true)).map
      fun (heap, s, ok) =>
    if ok then (c.put (shardOf key) heap (s.insert idx (makeTag (hashKey key)) p), true)
    else (c.put (shardOf key) (Function.update heap p none) s, false)

/-- The write-locked section of `cache_invalidate`. -/
def invalidateSection (c : CacheS) (key : Key) (allocOk : Bool) : Option CacheS :=
  let s := c.shards (shardOf key)
  (findSlot c.heap s (hashKey key) key (makeTag (hashKey key))).bind fun (idx, found) =>
  if found then
    (compactIfCrowded c.heap (s.tombstone idx) allocOk).bind fun t =>
    (entryRefDec c.heap (s.entries idx)).map fun heap => c.put (shardOf key) heap t
  else some c

/-- Drop the references of the first `j` slots. -/
def refDecSlots (heap : Heap) (s : Shard) : Nat → Option Heap
  | 0 => some heap
  | j + 1 =>
    (refDecSlots heap s j).bind fun heap =>
    if s.tags j &&& tagControlMask = 0 then entryRefDec heap (s.entries j) else some heap

/-- A shard without entries. -/
def Shard.blank (s : Shard) : Shard :=
  { s with tags := fun _ => tagEmpty, entries := fun _ => none,
           size := 0, tombstoneCount := 0, clockHand := 0 }

/-- The write-locked section of `cache_clear` for shard `i`. -/
def clearSection (c : CacheS) (i : Nat) : Option CacheS :=
  (refDecSlots c.heap (c.shards i) (c.shards i).bucketCount).map fun heap =>
    c.put i heap (c.shards i).blank

/-- The write-locked section of `cache_destroy` for shard `i`: its arrays are freed, and
no slot is left. -/
def destroySection (c : CacheS) (i : Nat) : Option CacheS :=
  (refDecSlots c.heap (c.shards i) (c.shards i).bucketCount).map fun heap =>
    c.put i heap { c.shards i with tags := fun _ => tagEmpty, entries := fun _ => none }

/-! ## The public calls -/

/-- `cache_create`, when its allocations succeed. -/
def cacheCreate (capacity ttl : Nat) : CacheS :=
  let capacity := if capacity = 0 then 1000 else capacity
  let shardCap := if capacity / shardCount < 1 then 1 else capacity / shardCount
  { heap := fun _ => none
    next := 0
    shards := fun _ => {
      tags := fun _ => tagEmpty
      entries := fun _ => none
      bucketCount := nextPowerOf2 (shardCap * 2)
      size := 0
      capacity := shardCap
      tombstoneCount := 0
      clockHand := 0 }
    ttl := if ttl = 0 then defaultTtl else ttl }

/-- `cache_get`: the entry whose value pointer is returned. -/
def cacheGet (c : CacheS) (key : Key) (now : Int) : Option (CacheS × Option Ptr) :=
  if key.length = 0 then some (c, none)
  else (getSection c key now).bind fun (c, found) =>
    match found with
    | .miss => some (c, none)
    | .expired => (expireSection c key now).map fun c => (c, none)
    | .hit p => some (c, some p)

/-- `malloc` and the initialisation of a new entry. -/
def newEntry (c : CacheS) (key : Key) (value : List UInt8) (ttl : Nat) (now : Int) : CacheS :=
  { c with
    heap := Function.update c.heap c.next (some {
      refCount := 1
      clockBit := 1
      data := {
        hash := hashKey key
        keyLen := key.length % 2 ^ 32
        expiresAt := now + ((if ttl = 0 then c.ttl else ttl : Nat) : Int)
        key := key
        value := value } })
    next := c.next + 1 }

/-- `cache_set`. -/
def cacheSet (c : CacheS) (key : Key) (value : List UInt8) (ttl : Nat) (now : Int)
    (mallocOk allocOk : Bool) : Option (CacheS × Bool) :=
  if key.length = 0 ∨ value.length = 0 ∨ mallocOk = false then some (c, false)
  else setSection (newEntry c key value ttl now) key c.next allocOk

/-- `cache_invalidate`. -/
def cacheInvalidate (c : CacheS) (key : Key) (allocOk : Bool) : Option CacheS :=
  invalidateSection c key allocOk

/-- The loop of `cache_clear` over the first `i` shards. -/
def clearLoop (c : CacheS) : Nat → Option CacheS
  | 0 => some c
  | i + 1 => (clearLoop c i).bind fun c => clearSection c i

/-- `cache_clear`. -/
def cacheClear (c : CacheS) : Option CacheS := clearLoop c shardCount

end Solidc.Cache
