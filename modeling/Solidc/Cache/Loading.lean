import Solidc.Cache.Persist
import Solidc.Cache.Sequential

/-! # Loading any file

What `cache_load` does with a file of arbitrary content. `fileRecords` reads the format: the
complete records of a file, and whether the file has all that its header announces. `loadBuffers`
lists the buffers that `cache_load` reads into. The key buffer is as large as it has to be except
for one length, where `klen + 1` wraps.
-/

namespace Solidc.Cache

open CLib

/-! ## The format -/

/-- A complete record. -/
structure FileRecord where
  key : List UInt8
  value : List UInt8
  expiry : Int

/-- The first record of a stream. -/
def readRecord (stream : List UInt8) : Option (FileRecord × List UInt8) :=
  (readLengths stream).bind fun ((klen, vlen, expiry), stream) =>
  (fread klen stream).bind fun (key, stream) =>
  (fread vlen stream).map fun (value, stream) => (⟨key, value, expiry⟩, stream)

/-- The complete records of a stream that should hold `count`, and whether it does. -/
def readRecords : Nat → List UInt8 → List FileRecord × Bool
  | 0, _ => ([], true)
  | count + 1, stream =>
    match readRecord stream with
    | none => ([], false)
    | some (r, stream) => (r :: (readRecords count stream).1, (readRecords count stream).2)

/-- The key lengths announced by those records and by the one that is cut off. -/
def announcedKlens : Nat → List UInt8 → List Nat
  | 0, _ => []
  | count + 1, stream =>
    match readLengths stream with
    | none => []
    | some ((klen, _, _), _) =>
      klen ::
        match readRecord stream with
        | none => []
        | some (_, stream) => announcedKlens count stream

/-- The number of records that a file announces and the stream of them. A header that is cut
off or not of this format announces none. -/
def fileStream (file : List UInt8) : Option (Nat × List UInt8) :=
  (readHeader file).bind fun ((magic, version, storedCount), stream) =>
  if magic ≠ cacheFileMagic ∨ version ≠ cacheFileVersion then none else some (storedCount, stream)

/-- The complete records of a file, and whether it is neither cut off nor of another format. -/
def fileRecords (file : List UInt8) : List FileRecord × Bool :=
  match fileStream file with
  | none => ([], false)
  | some (storedCount, stream) => readRecords storedCount stream

/-- The key lengths that `cache_load` gets to see. -/
def fileKlens (file : List UInt8) : List Nat :=
  match fileStream file with
  | none => []
  | some (storedCount, stream) => announcedKlens storedCount stream

/-! ## The buffers -/

/-- The lengths announced by a record, and the sizes of the buffers its key and value are read
into. -/
structure BufferUse where
  klen : Nat
  keyBuf : Nat
  vlen : Nat
  valBuf : Nat

/-- The buffers that `loadLoop` reads into. -/
def loopBuffers (now : Int) (clock : Nat → Int) (mem : Nat → LoadMem) :
    Nat → Nat → List UInt8 → Nat → CacheS → List BufferUse
  | 0, _, _, _, _ => []
  | count + 1, i, stream, valBufCap, c =>
    match readLengths stream with
    | none => []
    | some ((klen, vlen, expiry), stream) =>
      if keyBufSize ≤ klen ∧ (mem i).bigKeyBuf = false then []
      else if valBufCap < vlen ∧ (mem i).valBuf = false then []
      else
        let valBufCap := if valBufCap < vlen then vlen else valBufCap
        ⟨klen, keyRoom klen, vlen, valBufCap⟩ ::
          match (fread klen stream).bind fun (key, stream) =>
              (fread vlen stream).map fun (value, stream) => (key, value, stream) with
          | none => []
          | some (key, value, stream) =>
            if now < expiry then
              let remainingTtl := ((expiry - now) % 2 ^ 32).toNat
              match cacheSet c key value remainingTtl (clock i) (mem i).entry (mem i).compact with
              | some (c, true) => loopBuffers now clock mem count (i + 1) stream valBufCap c
              | _ => []
            else loopBuffers now clock mem count (i + 1) stream valBufCap c

/-- The buffers that `cache_load` reads into. -/
def loadBuffers (c : CacheS) (file : List UInt8) (now : Int) (clock : Nat → Int)
    (mem : Nat → LoadMem) : List BufferUse :=
  match fileStream file with
  | none => []
  | some (storedCount, stream) => loopBuffers now clock mem storedCount 0 stream 0 c

/-! ## The result -/

/-- An unexpired record that `cache_set` refuses. -/
def FileRecord.Refused (now : Int) (r : FileRecord) : Prop :=
  now < r.expiry ∧ (r.key.length = 0 ∨ r.value.length = 0)

/-- An allocation for a record fails. -/
def LoadMem.Fails (mem : LoadMem) : Prop :=
  mem.bigKeyBuf = false ∨ mem.valBuf = false ∨ mem.entry = false

/-- The unexpired records of a list, the first of them number `i`, have gone into the cache in
their order. -/
inductive InsertsUnexpired (now : Int) (clock : Nat → Int) :
    Nat → List FileRecord → CacheS → CacheS → Prop
  | nil {i c} : InsertsUnexpired now clock i [] c c
  | expired {i r rs c c'} : r.expiry ≤ now → InsertsUnexpired now clock (i + 1) rs c c' →
      InsertsUnexpired now clock i (r :: rs) c c'
  | live {i r rs c c₁ c' victim} : now < r.expiry → Victim c r.key victim →
      Inserted c c₁ (setData c r.key r.value ((r.expiry - now) % 2 ^ 32).toNat (clock i)) victim →
      InsertsUnexpired now clock (i + 1) rs c₁ c' → InsertsUnexpired now clock i (r :: rs) c c'

/-- The first `n` records, from number `i` on, have been dealt with, and the load has ended
there: with success if these are all and the file is whole. It stops before a complete record only
if that one is refused or finds no memory. -/
structure EndsAt (now : Int) (clock : Nat → Int) (mem : Nat → LoadMem) (i : Nat)
    (rs : List FileRecord) (whole : Bool) (c c' : CacheS) (ok : Bool) (n : Nat) : Prop where
  le : n ≤ rs.length
  inserts : InsertsUnexpired now clock i (rs.take n) c c'
  ok_iff : ok = true ↔ n = rs.length ∧ whole = true
  fault : ∀ r, rs[n]? = some r → r.Refused now ∨ (mem (i + n)).Fails

/-- Whatever the cache, the clock and the memory: each key and value of the file is read into a
buffer that holds it, and the load returns, with what `EndsAt` says. -/
def LoadsWell (file : List UInt8) : Prop :=
  ∀ c, CacheInv c → ∀ now clock mem,
    (∀ u ∈ loadBuffers c file now clock mem, u.klen + 1 ≤ u.keyBuf ∧ u.vlen ≤ u.valBuf) ∧
      ∃ c' ok n, cacheLoad c file now clock mem = some (c', ok) ∧
        EndsAt now clock mem 0 (fileRecords file).1 (fileRecords file).2 c c' ok n

/-! ## Lengths -/

theorem ofLe_lt (l : List UInt8) : ofLe l < 256 ^ l.length := by
  induction l with
  | nil => exact Nat.one_pos
  | cons b l ih =>
    have hb := b.toNat_lt
    rw [ofLe, List.length_cons, Nat.pow_succ]
    omega

theorem fread_length {n : Nat} {stream l rest : List UInt8} (h : fread n stream = some (l, rest)) :
    l.length = n := by
  unfold fread at h
  split at h
  · next hn =>
    have hl : stream.take n = l := congrArg Prod.fst (Option.some.inj h)
    rw [← hl, List.length_take, Nat.min_eq_left hn]
  · cases h

section

variable {stream rest : List UInt8} {klen vlen : Nat} {expiry : Int}

theorem readLengths_lt (h : readLengths stream = some ((klen, vlen, expiry), rest)) :
    klen < 2 ^ 32 ∧ expiry ≤ 2 ^ 63 - 1 := by
  simp only [readLengths, Option.bind_eq_some_iff, Option.map_eq_some_iff, Prod.exists,
    Prod.mk.injEq] at h
  obtain ⟨k, s₁, hk, v, s₂, -, e, s₃, he, ⟨rfl, -, rfl⟩, -⟩ := h
  have hkl := ofLe_lt k
  have hel := ofLe_lt e
  rw [fread_length hk] at hkl
  rw [fread_length he] at hel
  refine ⟨hkl, ?_⟩
  unfold int64
  split <;> omega

/-- The two ways the loop goes on after the lengths of a record. -/
theorem readRecord_cases (h : readLengths stream = some ((klen, vlen, expiry), rest)) :
    (readRecord stream = none ∧ ((fread klen rest).bind fun (key, stream) =>
        (fread vlen stream).map fun (value, stream) => (key, value, stream)) = none) ∨
      ∃ key value tail, key.length = klen ∧ readRecord stream = some (⟨key, value, expiry⟩, tail) ∧
        ((fread klen rest).bind fun (key, stream) =>
          (fread vlen stream).map fun (value, stream) => (key, value, stream)) =
            some (key, value, tail) := by
  rw [readRecord, h]
  cases hkey : fread klen rest with
  | none => exact Or.inl ⟨by simp [hkey], rfl⟩
  | some k =>
    obtain ⟨key, rest₁⟩ := k
    cases hval : fread vlen rest₁ with
    | none => exact Or.inl ⟨by simp [hkey, hval], by simp [hval]⟩
    | some v =>
      obtain ⟨value, tail⟩ := v
      exact Or.inr ⟨key, value, tail, fread_length hkey, by simp [hkey, hval], by simp [hval]⟩

end

/-! ## The key buffer -/

theorem keyRoom_lt_iff {klen : Nat} (h : klen < 2 ^ 32) :
    klen + 1 ≤ keyRoom klen ↔ klen ≠ 2 ^ 32 - 1 := by
  unfold keyRoom keyBufSize
  split <;> omega

variable {now : Int} {clock : Nat → Int} {mem : Nat → LoadMem} {c : CacheS}

/-- What is read goes into a key buffer of `keyRoom` bytes, whose record announced its length,
and into a value buffer that is large enough. -/
theorem mem_loopBuffers {count i cap : Nat} {stream : List UInt8} {u : BufferUse}
    (h : u ∈ loopBuffers now clock mem count i stream cap c) :
    u.klen ∈ announcedKlens count stream ∧ u.klen < 2 ^ 32 ∧ u.keyBuf = keyRoom u.klen ∧
      u.vlen ≤ u.valBuf := by
  induction count generalizing i cap stream c with
  | zero => cases h
  | succ count ih =>
    unfold loopBuffers at h
    unfold announcedKlens
    split at h
    · cases h
    next klen vlen expiry rest hlen =>
    split at h
    · cases h
    split at h
    · cases h
    rcases List.mem_cons.mp h with heq | h
    · -- this record
      subst heq
      refine ⟨List.mem_cons_self, (readLengths_lt hlen).1, rfl, ?_⟩
      dsimp only
      split <;> omega
    · -- a later one: this one is complete
      rcases readRecord_cases hlen with ⟨-, hnone⟩ | ⟨key, value, tail, -, hrec, hsome⟩
      · rw [hnone] at h
        cases h
      · rw [hsome] at h
        rw [hrec]
        dsimp only at h
        have hrest : u.klen ∈ announcedKlens count tail ∧ u.klen < 2 ^ 32 ∧
            u.keyBuf = keyRoom u.klen ∧ u.vlen ≤ u.valBuf := by
          split at h
          · split at h
            · exact ih h
            · cases h
          · exact ih h
        exact ⟨List.mem_cons_of_mem _ hrest.1, hrest.2⟩

/-- When every record is expired and memory is plenty, every announced length gets a buffer. -/
theorem loopBuffers_of_announced {count i cap : Nat} {stream : List UInt8} {klen : Nat}
    (hmem : ∀ i, ¬ (mem i).Fails) (hnow : 2 ^ 63 - 1 ≤ now)
    (h : klen ∈ announcedKlens count stream) :
    ∃ u ∈ loopBuffers now clock mem count i stream cap c, u.klen = klen := by
  induction count generalizing i cap stream with
  | zero => cases h
  | succ count ih =>
    unfold announcedKlens at h
    unfold loopBuffers
    split at h
    · cases h
    next k vlen expiry rest hlen =>
    have hplenty := hmem i
    rw [LoadMem.Fails, not_or, not_or] at hplenty
    simp only [hplenty, Bool.true_eq_false, and_false, if_false]
    rcases List.mem_cons.mp h with heq | h
    · exact ⟨_, List.mem_cons_self, heq.symm⟩
    · rcases readRecord_cases hlen with ⟨hrec, -⟩ | ⟨key, value, tail, -, hrec, hsome⟩
      · rw [hrec] at h
        cases h
      · rw [hrec] at h
        have hexp : ¬ now < expiry := by
          have := (readLengths_lt hlen).2
          omega
        simp only [hsome, if_neg hexp]
        obtain ⟨u, hu, hklen⟩ := @ih (i + 1) (if cap < vlen then vlen else cap) tail h
        exact ⟨u, List.mem_cons_of_mem _ hu, hklen⟩

/-! ## The loop -/

section ends

variable {c₁ c' : CacheS} {i n : Nat} {r : FileRecord} {rs : List FileRecord} {whole ok : Bool}

/-- The load ends at once: the records are at their end, or the first one is a fault. -/
theorem EndsAt.none
    (hn : rs[0]? = Option.none ∨ ∃ r, rs[0]? = some r ∧ (r.Refused now ∨ (mem i).Fails))
    (hwhole : rs = [] → whole = false) : EndsAt now clock mem i rs whole c c false 0 where
  le := Nat.zero_le _
  inserts := by
    rw [List.take_zero]
    exact .nil
  ok_iff := by
    constructor
    · intro h
      cases h
    · intro h
      rw [hwhole (List.length_eq_zero_iff.mp h.1.symm)] at h
      exact h.2
  fault := by
    intro r hr
    rcases hn with hn | ⟨r', hr', hbad⟩
    · rw [hn] at hr
      cases hr
    · rw [hr', Option.some.injEq] at hr
      exact hr ▸ hbad

/-- A record is dealt with before the rest. -/
theorem EndsAt.cons (h : EndsAt now clock mem (i + 1) rs whole c₁ c' ok n)
    (hr : InsertsUnexpired now clock (i + 1) (rs.take n) c₁ c' →
      InsertsUnexpired now clock i (r :: rs.take n) c c') :
    EndsAt now clock mem i (r :: rs) whole c c' ok (n + 1) where
  le := Nat.succ_le_succ h.le
  inserts := hr h.inserts
  ok_iff := by rw [h.ok_iff, List.length_cons, Nat.add_right_cancel_iff]
  fault := by
    intro r' hr'
    have := h.fault r' hr'
    rwa [show i + 1 + n = i + (n + 1) by omega] at this

end ends

/-- The loop ends as `EndsAt` says, by induction on the records left. -/
theorem loadLoop_ends {count i cap : Nat} {stream : List UInt8} (hinv : CacheInv c)
    (hlens : ∀ klen ∈ announcedKlens count stream, klen ≠ 2 ^ 32 - 1) :
    ∃ c' ok n, loadLoop now clock mem count i stream cap c = some (c', ok) ∧
      EndsAt now clock mem i (readRecords count stream).1 (readRecords count stream).2
        c c' ok n := by
  induction count generalizing i cap stream c with
  | zero =>
    refine ⟨c, true, 0, rfl, Nat.le_refl _, .nil, ?_, by rintro _ ⟨⟩⟩
    exact ⟨fun _ => ⟨rfl, rfl⟩, fun _ => rfl⟩
  | succ count ih =>
    unfold loadLoop readRecords
    unfold announcedKlens at hlens
    cases hlen : readLengths stream with
    | none =>
      have hrec : readRecord stream = none := by rw [readRecord, hlen]; rfl
      rw [hrec]
      exact ⟨c, false, 0, rfl, EndsAt.none (Or.inl rfl) (fun _ => rfl)⟩
    | some lengths =>
    obtain ⟨⟨klen, vlen, expiry⟩, rest⟩ := lengths
    simp only [hlen] at hlens ⊢
    have hshort := (readLengths_lt hlen).1
    have hroom := (keyRoom_lt_iff hshort).mpr (hlens klen List.mem_cons_self)
    -- without a buffer the loop ends at this record, complete or not
    have hstop : (mem i).Fails → EndsAt now clock mem i
        (match readRecord stream with
          | none => ([], false)
          | some (r, stream) => (r :: (readRecords count stream).1, (readRecords count stream).2)).1
        (match readRecord stream with
          | none => ([], false)
          | some (r, stream) => (r :: (readRecords count stream).1, (readRecords count stream).2)).2
        c c false 0 := by
      intro hfails
      cases readRecord stream with
      | none => exact EndsAt.none (Or.inl rfl) (fun _ => rfl)
      | some rec => exact EndsAt.none (Or.inr ⟨_, rfl, Or.inr hfails⟩) (by rintro ⟨⟩)
    by_cases hbig : keyBufSize ≤ klen ∧ (mem i).bigKeyBuf = false
    · rw [if_pos hbig]
      exact ⟨c, false, 0, rfl, hstop (Or.inl hbig.2)⟩
    by_cases hval : cap < vlen ∧ (mem i).valBuf = false
    · rw [if_neg hbig, if_pos hval]
      exact ⟨c, false, 0, rfl, hstop (Or.inr (Or.inl hval.2))⟩
    rw [if_neg hbig, if_neg hval, if_neg (Nat.not_lt.mpr hroom)]
    rcases readRecord_cases hlen with ⟨hrec, hnone⟩ | ⟨key, value, tail, hklen, hrec, hsome⟩
    · -- cut off
      rw [hnone, hrec]
      exact ⟨c, false, 0, rfl, EndsAt.none (Or.inl rfl) (fun _ => rfl)⟩
    · rw [hsome, hrec]
      rw [hrec] at hlens
      have htail : ∀ klen ∈ announcedKlens count tail, klen ≠ 2 ^ 32 - 1 :=
        fun k hk => hlens k (List.mem_cons_of_mem _ hk)
      dsimp only
      by_cases hlive : now < expiry
      · rw [if_pos hlive, cacheSet]
        by_cases hrej : key.length = 0 ∨ value.length = 0 ∨ (mem i).entry = false
        · rw [if_pos hrej]
          refine ⟨c, false, 0, rfl, EndsAt.none (Or.inr ⟨_, rfl, ?_⟩) (by rintro ⟨⟩)⟩
          rcases hrej with hk | hv | hm
          · exact Or.inl ⟨hlive, Or.inl hk⟩
          · exact Or.inl ⟨hlive, Or.inr hv⟩
          · exact Or.inr (Or.inr (Or.inr hm))
        · rw [if_neg hrej]
          obtain ⟨c₁, victim, hset, hvictim, hins⟩ := setSection_spec hinv (hklen ▸ hshort) value
            ((expiry - now) % 2 ^ 32).toNat (clock i) (mem i).compact
          rw [hset, Option.bind_some]
          dsimp only
          rw [if_pos rfl]
          obtain ⟨c', ok, n, hrun, hend⟩ := @ih c₁ (i + 1) _ tail hins.inv htail
          exact ⟨c', ok, n + 1, hrun, hend.cons (.live hlive hvictim hins)⟩
      · rw [if_neg hlive]
        obtain ⟨c', ok, n, hrun, hend⟩ := @ih c (i + 1) _ tail hinv htail
        exact ⟨c', ok, n + 1, hrun, hend.cons (.expired (Int.not_lt.mp hlive))⟩

/-! ## The call -/

theorem cacheLoad_eq (c : CacheS) (file : List UInt8) (now : Int) (clock : Nat → Int)
    (mem : Nat → LoadMem) : cacheLoad c file now clock mem =
      match fileStream file with
      | none => some (c, false)
      | some (storedCount, stream) => loadLoop now clock mem storedCount 0 stream 0 c := by
  unfold cacheLoad fileStream
  cases readHeader file with
  | none => rfl
  | some header =>
    rw [Option.bind_some]
    dsimp only
    split <;> rfl

/-- A record that `cache_load` gets to and that announces the length that wraps is read into a
buffer of size zero. -/
theorem LoadsWell.not_wrapping {file : List UInt8} (h : LoadsWell file) {klen : Nat}
    (hklen : klen ∈ fileKlens file) : klen ≠ 2 ^ 32 - 1 := by
  -- an empty cache, and a clock that has every record expired
  have hnew : CacheInv (cacheCreate 0 0) := (create_spec (by decide) 0).1
  have hbuf := (h _ hnew (2 ^ 63 - 1) (fun _ => 0) (fun _ => ⟨true, true, true, true⟩)).1
  unfold fileKlens at hklen
  unfold loadBuffers at hbuf
  split at hklen
  · cases hklen
  · next count stream hstream =>
    simp only [hstream] at hbuf
    have hplenty : ¬ LoadMem.Fails ⟨true, true, true, true⟩ := by simp [LoadMem.Fails]
    obtain ⟨u, hu, rfl⟩ : ∃ u ∈ loopBuffers (2 ^ 63 - 1) (fun _ => 0)
        (fun _ => ⟨true, true, true, true⟩) count 0 stream 0 (cacheCreate 0 0), u.klen = klen :=
      loopBuffers_of_announced (fun _ => hplenty) (Int.le_refl _) hklen
    have hroom := (hbuf u hu).1
    obtain ⟨-, hlt, hkey, -⟩ := mem_loopBuffers hu
    rw [hkey] at hroom
    exact (keyRoom_lt_iff hlt).mp hroom

/-- A file is loaded well unless a record that `cache_load` gets to announces the one key length
whose buffer size wraps. -/
theorem loadsWell_iff (file : List UInt8) :
    LoadsWell file ↔ ∀ klen ∈ fileKlens file, klen ≠ 2 ^ 32 - 1 := by
  constructor
  · intro h klen hklen
    exact h.not_wrapping hklen
  · intro h c hinv now clock mem
    rw [cacheLoad_eq]
    unfold fileKlens at h
    unfold loadBuffers fileRecords
    cases hstream : fileStream file with
    | none =>
      exact ⟨nofun, c, false, 0, rfl, EndsAt.none (Or.inl rfl) (fun _ => rfl)⟩
    | some s =>
      simp only [hstream] at h
      refine ⟨?_, loadLoop_ends hinv h⟩
      intro u hu
      obtain ⟨hann, hlt, hkey, hval⟩ := mem_loopBuffers hu
      rw [hkey]
      exact ⟨(keyRoom_lt_iff hlt).mpr (h _ hann), hval⟩

/-- A file of one record, whose header announces a key of 2^32 - 1 bytes. -/
def wrappingFile : List UInt8 :=
  header 1 ++ ([0xFF, 0xFF, 0xFF, 0xFF] ++ (toLe 8 1 ++ (toLe 8 0 ++ [0x6B])))

theorem not_loadsWell : ¬ LoadsWell wrappingFile := by
  intro h
  have hmem : 2 ^ 32 - 1 ∈ fileKlens wrappingFile := by decide +kernel
  exact h.not_wrapping hmem rfl

end Solidc.Cache
