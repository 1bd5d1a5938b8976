import Solidc.Lib.CString
import Solidc.Map.Refinement

/-! # Growth with keys of different lengths

`map_resize` hashes every stored key with the length of the key being set. With keys
of one size that is the right length (`refines_finmap`); with strings it need not be.

* `GrowthSafe` — growth loses no key, and setting a present key updates it;
* `growthSafe_of_growthOk` — it holds along every run whose growths place the stored
  keys well (`GrowthOk`);
* `default_string_map_unsafe` — it fails for the default string configuration.
-/

namespace Solidc.Map

open CLib

variable {K V : Type*}

/-- Along every run whose sets meet `cond`: a `map_set` that makes the map grow leaves
every key set before found under its own length with its value, and setting a present
key updates it instead of adding a second entry. -/
def GrowthSafe (P : Keyed K) (cond : HashMap K V → K → Prop) (m₀ : HashMap K V) : Prop :=
  ∀ ops m, Run P cond m₀ ops m →
    (∀ key value m', cond m key → mustGrow m →
      mapSet P.toMapFns m key (P.len key) value = (m', true) →
      ∀ j v, latest P ops j = some v → ¬ P.Rel key j →
        mapGet P.toMapFns m' j (P.len j) = v) ∧
    ∀ j v w m', cond m j → latest P ops j = some v →
      mapSet P.toMapFns m j (P.len j) w = (m', true) →
      mapLength m' = mapLength m ∧ mapGet P.toMapFns m' j (P.len j) = w ∧
        ((mapEntries m').map fun e => Quotient.mk P.setoid e.1).Nodup

open Classical in
/-- Growth is safe as long as it places the stored keys well. -/
theorem growthSafe_of_growthOk (P : Keyed K) (initialCapacity : Nat)
    (hsize : initialCapacity < 2 ^ 64) (maxLoadFactor : ℚ) (m₀ : HashMap K V)
    (hcreate : mapCreate initialCapacity maxLoadFactor = some m₀) :
    GrowthSafe P (GrowthOk P) m₀ := by
  rcases create_spec (P := P) hsize hcreate with ⟨hinv₀, hempty⟩
  intro ops m hrun
  rcases run_represents hinv₀ hempty (fun _ _ _ h => h) hrun with ⟨hinv, hrep⟩
  constructor
  · intro key value m' hc _ hset j v hj hne
    rcases set_represents hinv hrep hc hset with ⟨hinv', hrep', -⟩
    have hclass : Quotient.mk P.setoid j ≠ Quotient.mk P.setoid key := by
      intro h
      exact hne ((class_eq_iff key j).mp h.symm)
    rw [get_represents hinv' hrep', Finmap.lookup_insert_of_ne _ hclass]
    exact congrArg Option.join hj
  · intro j v w m' hc hj hset
    rcases set_represents hinv hrep hc hset with ⟨hinv', hrep', hsame⟩
    refine ⟨hsame.mpr ⟨v, (hrep j v).mp hj⟩, ?_, mapEntries_nodup hinv'⟩
    rw [get_represents hinv' hrep', Finmap.lookup_insert]
    rfl

theorem growthSafe_of_growthOk_intKey :
    ∃ m₀ : HashMap Nat Nat, mapCreate 9 (1 / 2) = some m₀ ∧
      GrowthSafe intKey (GrowthOk intKey) m₀ :=
  ⟨_, rfl, growthSafe_of_growthOk intKey 9 (by decide) (1 / 2) _ rfl⟩

/-! ## The default string configuration -/

/-- `fast_small_hash`: the first `size` bytes, at most eight, as a little-endian number. -/
def fastSmallHash (key : CMem) (size : Nat) : Nat :=
  ((List.range (min size 8)).map fun i => ((key.rd i).getD 0).toNat * 256 ^ i).sum

/-- `xxhash`, given `XXH3_64bits` on the bytes it reads. -/
def xxhash (xxh3 : List UInt8 → Nat) (key : CMem) (size : Nat) : Nat :=
  if size ≤ 8 then fastSmallHash key size else xxh3 (key.take size)

/-- `MapConfigStr`: `key_compare_char_ptr` and the default hash, each string presented
with its `strlen`. -/
def mapConfigStr (xxh3 : List UInt8 → Nat) : Keyed CString where
  hash s n := xxhash xxh3 s.mem n
  keyCompare a b := decide (a.bytes = b.bytes)
  len := CString.len
  equiv := by
    constructor
    · intro a
      simp
    · intro a b h
      simpa using (of_decide_eq_true h).symm
    · intro a b c h h'
      simpa using (of_decide_eq_true h).trans (of_decide_eq_true h')
  compat a b h := by
    have hab : a.bytes = b.bytes := of_decide_eq_true h
    unfold CString.mem CString.len
    rw [hab]

section Congr

variable {F G : MapFns K} (hcmp : F.keyCompare = G.keyCompare)

include hcmp

theorem setLoop_congr (fuel : Nat) (m : HashMap K V) (key : K) (value : Option V) (d idx : Nat) :
    setLoop F fuel m key value d idx = setLoop G fuel m key value d idx := by
  induction fuel generalizing m key value d idx with
  | zero => rfl
  | succ fuel ih =>
    unfold setLoop
    simp only [ih, hcmp]

theorem locateLoop_congr (m : HashMap K V) (key : K) (fuel d idx : Nat) :
    locateLoop F m key fuel d idx = locateLoop G m key fuel d idx := by
  induction fuel generalizing d idx with
  | zero => rfl
  | succ fuel ih =>
    unfold locateLoop
    simp only [ih, hcmp]

omit hcmp in
theorem resizeLoop_congr {keyLen : Nat} (hhash : ∀ k, F.hash k keyLen = G.hash k keyLen)
    (m : HashMap K V) (newCapacity i : Nat) :
    resizeLoop F m newCapacity keyLen i = resizeLoop G m newCapacity keyLen i := by
  induction i with
  | zero => rfl
  | succ i ih =>
    unfold resizeLoop
    simp only [ih, hhash]

/-- `map_set` looks at the hash function only through the length it is given. -/
theorem mapSet_congr {keyLen : Nat} (hhash : ∀ k, F.hash k keyLen = G.hash k keyLen)
    (m : HashMap K V) (key : K) (value : Option V) :
    mapSet F m key keyLen value = mapSet G m key keyLen value := by
  unfold mapSet mapResize
  simp only [hhash, resizeLoop_congr hhash, setLoop_congr hcmp]

theorem mapGet_congr {keyLen : Nat} (hhash : ∀ k, F.hash k keyLen = G.hash k keyLen)
    (m : HashMap K V) (key : K) : mapGet F m key keyLen = mapGet G m key keyLen := by
  unfold mapGet
  rw [hhash, locateLoop_congr hcmp]

end Congr

/-- Hashes of at most eight bytes do not reach XXH3. -/
theorem mapConfigStr_short (xxh3 xxh3' : List UInt8 → Nat) {n : Nat} (hn : n ≤ 8) (s : CString) :
    (mapConfigStr xxh3).hash s n = (mapConfigStr xxh3').hash s n := by
  show xxhash xxh3 s.mem n = xxhash xxh3' s.mem n
  unfold xxhash
  rw [if_pos hn, if_pos hn]

theorem mapSet_short (xxh3 xxh3' : List UInt8 → Nat) {n : Nat} (hn : n ≤ 8)
    (m : HashMap CString V) (key : CString) (value : Option V) :
    mapSet (mapConfigStr xxh3).toMapFns m key n value =
      mapSet (mapConfigStr xxh3').toMapFns m key n value :=
  mapSet_congr (F := (mapConfigStr xxh3).toMapFns) (G := (mapConfigStr xxh3').toMapFns) rfl
    (mapConfigStr_short xxh3 xxh3' hn) m key value

theorem mapGet_short (xxh3 xxh3' : List UInt8 → Nat) {n : Nat} (hn : n ≤ 8)
    (m : HashMap CString V) (key : CString) :
    mapGet (mapConfigStr xxh3).toMapFns m key n = mapGet (mapConfigStr xxh3').toMapFns m key n :=
  mapGet_congr (F := (mapConfigStr xxh3).toMapFns) (G := (mapConfigStr xxh3').toMapFns) rfl
    (mapConfigStr_short xxh3 xxh3' hn) m key

/-- Set each of the keys to `7`; the flag tells whether every call succeeded. -/
def setAll (P : Keyed K) (m : HashMap K Nat) (keys : List K) : HashMap K Nat × Bool :=
  keys.foldl (fun s key =>
    let r := mapSet P.toMapFns s.1 key (P.len key) (some 7)
    (r.1, s.2 && r.2)) (m, true)

theorem setAll_append (P : Keyed K) (m : HashMap K Nat) (keys : List K) (key : K) :
    setAll P m (keys ++ [key]) =
      ((mapSet P.toMapFns (setAll P m keys).1 key (P.len key) (some 7)).1,
        (setAll P m keys).2 &&
          (mapSet P.toMapFns (setAll P m keys).1 key (P.len key) (some 7)).2) := by
  unfold setAll
  rw [List.foldl_append]
  rfl

theorem run_setAll (P : Keyed K) (m : HashMap K Nat) (keys : List K)
    (h : (setAll P m keys).2 = true) :
    Run P (fun _ _ => True) m (keys.map fun key => .set key (some 7)) (setAll P m keys).1 := by
  induction keys using List.reverseRecOn with
  | nil => exact .nil
  | append_singleton keys key ih =>
    rw [setAll_append] at h ⊢
    rw [Bool.and_eq_true] at h
    rw [List.map_append]
    exact Run.set_of_result key (some 7) (ih h.1) trivial h.2

theorem setAll_short (xxh3 xxh3' : List UInt8 → Nat) (m : HashMap CString Nat)
    (keys : List CString) (h : ∀ key ∈ keys, key.len ≤ 8) :
    setAll (mapConfigStr xxh3) m keys = setAll (mapConfigStr xxh3') m keys := by
  induction keys using List.reverseRecOn with
  | nil => rfl
  | append_singleton keys key ih =>
    have hkeys : ∀ k ∈ keys, k.len ≤ 8 := fun k hk => h k (List.mem_append_left _ hk)
    have hkey : key.len ≤ 8 := h key (List.mem_append_right _ List.mem_cons_self)
    rw [setAll_append, setAll_append, ih hkeys]
    show ((mapSet _ _ key key.len _).1, _ && (mapSet _ _ key key.len _).2) = _
    rw [mapSet_short xxh3 xxh3' hkey]
    rfl

/-- A string of one character. -/
def oneChar (b : UInt8) (h : (0 : UInt8) ∉ [b] := by decide) : CString := ⟨[b], h⟩

/-- The empty string. -/
def emptyStr : CString := ⟨[], nul_not_mem_nil⟩

/-- The strings `"b"` to `"l"`, and then `"a"`. -/
def twelveLetters : List CString :=
  [oneChar 98, oneChar 99, oneChar 100, oneChar 101, oneChar 102, oneChar 103, oneChar 104,
    oneChar 105, oneChar 106, oneChar 107, oneChar 108] ++ [oneChar 97]

/-- A map created with `MapConfigStr`. -/
def strMap : HashMap CString Nat := (mapCreate 0 0).get rfl

/-- The string map of the default configuration, whatever XXH3 computes: after setting
twelve one-letter keys, setting the empty string grows the table and hashes the letters
with length zero, and `"a"` is lost. -/
theorem default_string_map_unsafe :
    ¬ ∃ xxh3, GrowthSafe (mapConfigStr xxh3) (fun _ _ => True) strMap := by
  intro hex
  rcases hex with ⟨xxh3, hsafe⟩
  have hshort : setAll (mapConfigStr xxh3) strMap twelveLetters =
      setAll (mapConfigStr fun _ => 0) strMap twelveLetters :=
    setAll_short xxh3 _ strMap twelveLetters (by decide)
  have hok : (setAll (mapConfigStr fun _ => 0) strMap twelveLetters).2 = true := by decide +kernel
  have hrun := run_setAll (mapConfigStr xxh3) strMap twelveLetters (by rw [hshort]; exact hok)
  rw [hshort] at hrun
  have hset := mapSet_short xxh3 (fun _ => 0) (Nat.zero_le 8)
    (setAll (mapConfigStr fun _ => 0) strMap twelveLetters).1 emptyStr (some 7)
  have hgrown := (hsafe _ _ hrun).1 emptyStr (some 7) _ trivial (by decide +kernel)
    (Prod.ext rfl (by show (mapSet _ _ emptyStr 0 _).2 = true; rw [hset]; decide +kernel))
    (oneChar 97) (some 7)
  have hlast : latest (mapConfigStr xxh3) (twelveLetters.map fun key => Op.set key (some 7))
      (oneChar 97) = some (some 7) := by
    rw [twelveLetters, List.map_append, List.map_singleton]
    exact latest_set _ _ _
  have hdistinct : ¬ (mapConfigStr xxh3).Rel emptyStr (oneChar 97) := by
    intro h
    have hbytes : emptyStr.bytes = (oneChar 97).bytes := of_decide_eq_true h
    cases hbytes
  have hfound := hgrown hlast hdistinct
  have hlost : mapGet (mapConfigStr fun _ => 0).toMapFns
      (mapSet (mapConfigStr fun _ => 0).toMapFns
        (setAll (mapConfigStr fun _ => 0) strMap twelveLetters).1 emptyStr 0 (some 7)).1
      (oneChar 97) 1 = none := by decide +kernel
  rw [← hset, ← mapGet_short xxh3 (fun _ => 0) (by decide)] at hlost
  exact absurd (hlost.symm.trans hfound) (by decide)

end Solidc.Map
