import Solidc.Cache.Table
import Solidc.Lib.Endian

/-! # `cache_save` and `cache_load`

A file is its bytes, on a little-endian machine. Writing, seeking and opening succeed; reading
fails where the file ends. `cache_load` has the outcomes of its allocations as an argument, and
the readings of the clock: one of its own and one in each `cache_set`.
-/

namespace Solidc.Cache

open CLib

/-- `CACHE_FILE_MAGIC`. -/
def cacheFileMagic : Nat := 0x45484346

/-- `CACHE_FILE_VERSION`. -/
def cacheFileVersion : Nat := 1

/-! ## Saving -/

/-- What is written for an entry. -/
def record (d : EntryData) : List UInt8 :=
  toLe 4 d.keyLen ++ (toLe 8 d.value.length ++ (toLe 8 (word64 d.expiresAt) ++
    (d.key.take d.keyLen ++ d.value)))

/-- The inner loop of `cache_save` over the first `j` slots of a shard: the records written so
far, and `actual_count`. -/
def saveSlots (heap : Heap) (s : Shard) (now : Int) :
    Nat → List UInt8 × Nat → Option (List UInt8 × Nat)
  | 0, out => some out
  | j + 1, out =>
    (saveSlots heap s now j out).bind fun (bytes, actualCount) =>
    if s.tags j &&& tagControlMask ≠ 0 then some (bytes, actualCount)
    else match s.entries j with
      | none => some (bytes, actualCount)
      | some p => (heap p).map fun entry =>
        if entry.data.expiresAt ≤ now then (bytes, actualCount)
        else (bytes ++ record entry.data, (actualCount + 1) % 2 ^ 64)

/-- The outer loop, over the first `i` shards. -/
def saveShards (c : CacheS) (now : Int) : Nat → Option (List UInt8 × Nat)
  | 0 => some ([], 0)
  | i + 1 =>
    (saveShards c now i).bind
      (saveSlots c.heap (c.shards i) now (c.shards i).bucketCount)

/-- The header of a file. -/
def header (totalEntries : Nat) : List UInt8 :=
  toLe 4 cacheFileMagic ++ (toLe 4 cacheFileVersion ++ toLe 8 totalEntries)

/-- Bytes written over a file from `off` on. -/
def overwrite (file : List UInt8) (off : Nat) (bytes : List UInt8) : List UInt8 :=
  file.take off ++ (bytes ++ file.drop (off + bytes.length))

/-- `cache_save`: the file. The count is patched into the header at the end. -/
def cacheSave (c : CacheS) (now : Int) : Option (List UInt8) :=
  (saveShards c now shardCount).map fun (bytes, actualCount) =>
  overwrite (header 0 ++ bytes) 8 (toLe 8 actualCount)

/-! ## Loading -/

/-- The outcomes of the allocations for one record: `realloc` of the buffers for long keys and
for values, and those of `cache_set`. -/
structure LoadMem where
  bigKeyBuf : Bool
  valBuf : Bool
  entry : Bool
  compact : Bool

/-- The three numbers in front of a record. -/
def readLengths (stream : List UInt8) : Option ((Nat × Nat × Int) × List UInt8) :=
  (fread 4 stream).bind fun (klen, stream) =>
  (fread 8 stream).bind fun (vlen, stream) =>
  (fread 8 stream).map fun (expiry, stream) =>
  ((ofLe klen, ofLe vlen, int64 (ofLe expiry)), stream)

/-- `sizeof(key_buf)`. -/
def keyBufSize : Nat := 512

/-- The size of the buffer a key is read into; `klen + 1` is a 32-bit sum. -/
def keyRoom (klen : Nat) : Nat := if keyBufSize ≤ klen then (klen + 1) % 2 ^ 32 else keyBufSize

/-- The loop of `cache_load` for the last `count` records, from record `i` on. -/
def loadLoop (now : Int) (clock : Nat → Int) (mem : Nat → LoadMem) :
    Nat → Nat → List UInt8 → Nat → CacheS → Option (CacheS × Bool)
  | 0, _, _, _, c => some (c, true)
  | count + 1, i, stream, valBufCap, c =>
    match readLengths stream with
    | none => some (c, false)
    | some ((klen, vlen, expiry), stream) =>
      if keyBufSize ≤ klen ∧ (mem i).bigKeyBuf = false then some (c, false)
      else if valBufCap < vlen ∧ (mem i).valBuf = false then some (c, false)
      else if keyRoom klen < klen + 1 then none
      else
        let valBufCap := if valBufCap < vlen then vlen else valBufCap
        match (fread klen stream).bind fun (key, stream) =>
            (fread vlen stream).map fun (value, stream) => (key, value, stream) with
        | none => some (c, false)
        | some (key, value, stream) =>
          if now < expiry then
            let remainingTtl := ((expiry - now) % 2 ^ 32).toNat
            (cacheSet c key value remainingTtl (clock i) (mem i).entry (mem i).compact).bind
              fun (c, ok) =>
              if ok then loadLoop now clock mem count (i + 1) stream valBufCap c
              else some (c, false)
          else loadLoop now clock mem count (i + 1) stream valBufCap c

/-- The header of a file that is read. -/
def readHeader (file : List UInt8) : Option ((Nat × Nat × Nat) × List UInt8) :=
  (fread 4 file).bind fun (magic, file) =>
  (fread 4 file).bind fun (version, file) =>
  (fread 8 file).map fun (storedCount, file) =>
  ((ofLe magic, ofLe version, ofLe storedCount), file)

/-- `cache_load`: the cache and the result; `none` if a buffer is overrun or a freed entry is
touched. -/
def cacheLoad (c : CacheS) (file : List UInt8) (now : Int) (clock : Nat → Int)
    (mem : Nat → LoadMem) : Option (CacheS × Bool) :=
  match readHeader file with
  | none => some (c, false)
  | some ((magic, version, storedCount), stream) =>
    if magic ≠ cacheFileMagic ∨ version ≠ cacheFileVersion then some (c, false)
    else loadLoop now clock mem storedCount 0 stream 0 c

end Solidc.Cache
