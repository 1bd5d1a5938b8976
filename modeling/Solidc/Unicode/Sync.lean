import Solidc.Unicode.Texts

/-! # The metadata of string objects along a run

A run is a list of calls over string objects that are named by their position. `InSync`: `length`
is `strlen(data)`, `count` is what `utf8_count_codepoints` finds in the data, and the text fits.

`length` and `capacity` never go wrong. `count` is adjusted by the leading bytes of a whole
argument where only its valid-byte-count prefix is stored, and by the number of pieces that
`utf8_remove` has passed, whatever they hold. `Counted` says that a call's two measures agree;
`step_tracks` is the step lemma for all calls, `runCalls_inSync` the result for whole runs, and
`not_inSync_append` a run on which `count` is wrong.
-/

namespace Solidc.Unicode

open CLib

/-- The calls, with the positions of the strings they are made on. -/
inductive StringCall where
  | new (data : CString)
  | append (k : Nat) (data : CString)
  | insert (k index : Nat) (data : CString)
  | remove (k index count : Nat)
  | replace (k : Nat) (oldStr newStr : CString)
  | replaceAll (k : Nat) (oldStr newStr : CString)
  | concat (j k : Nat)

/-- A function that changes its first argument in place. -/
def callAt {α : Type} (strs : List Utf8String) (k : Nat)
    (f : Utf8String → Option (Utf8String × α)) : Option (List Utf8String) :=
  match strs[k]? with
  | none => some strs
  | some s => (f s).map fun r => strs.set k r.1

/-- One call; `none` if it leaves a buffer. -/
def StringCall.run (strs : List Utf8String) : StringCall → Option (List Utf8String)
  | new data => (utf8New data.mem).map fun r => strs ++ r.toList
  | append k data => callAt strs k fun s => utf8Append s data.mem
  | insert k index data => callAt strs k fun s => utf8Insert s index data.mem
  | remove k index count => callAt strs k fun s => utf8Remove s index count
  | replace k oldStr newStr => callAt strs k fun s => utf8Replace s oldStr.mem newStr.mem
  | replaceAll k oldStr newStr => callAt strs k fun s => utf8ReplaceAll s oldStr.mem newStr.mem
  | concat j k =>
    match strs[j]?, strs[k]? with
    | some s₁, some s₂ => (utf8Concat s₁ s₂).map fun r => strs ++ r.toList
    | _, _ => some strs

def runCalls : List Utf8String → List StringCall → Option (List Utf8String)
  | strs, [] => some strs
  | strs, call :: calls => (call.run strs).bind fun strs' => runCalls strs' calls

structure InSync (s : Utf8String) : Prop where
  strlen : (cstr s.data).map List.length = some s.length
  codepoints : utf8CountCodepoints s.data = some s.count
  fits : s.length ≤ s.capacity

/-! ## When the two measures agree -/

/-- What an argument has behind its valid-byte-count prefix is continuation bytes. -/
def Whole (d : CString) : Prop := leads d.bytes = leads (d.bytes.take (validLen d))

/-- The error of the new string makes up for that of the old one. -/
def Balanced (oldStr newStr : CString) : Prop :=
  leads newStr.bytes + leads (oldStr.bytes.take (validLen oldStr)) =
    leads oldStr.bytes + leads (newStr.bytes.take (validLen newStr))

/-- The pieces that `utf8_remove` takes out have one leading byte each, on the whole. -/
def EvenPieces (text : List UInt8) (index count : Nat) : Prop :=
  leads (pieceBytes count (text.drop index)) = (pieces count (text.drop index)).length

/-- The condition on a call, of its arguments and the string it is made on. -/
def Counted (strs : List Utf8String) : StringCall → Prop
  | .new _ => True
  | .append _ data => Whole data
  | .insert k index data => ∀ s, strs[k]? = some s → index ≤ s.length → validLen data ≠ 0 →
      Whole data
  | .remove k index count => ∀ s, strs[k]? = some s → EvenPieces (cstrOf s.data) index count
  | .replace k oldStr newStr => ∀ s, strs[k]? = some s →
      findSub oldStr.bytes (cstrOf s.data) ≠ none → Balanced oldStr newStr
  | .replaceAll k oldStr newStr => ∀ s, strs[k]? = some s → validLen oldStr ≠ 0 →
      findSub oldStr.bytes (cstrOf s.data) ≠ none → Balanced oldStr newStr
  | .concat _ _ => True

/-- Every call of a run meets its condition. -/
def AllCounted : List Utf8String → List StringCall → Prop
  | _, [] => True
  | strs, call :: calls =>
    Counted strs call ∧ ∀ strs', call.run strs = some strs' → AllCounted strs' calls

/-! ## The invariant -/

/-- `count` is the number of leading bytes of the text. -/
structure Tracks (s : Utf8String) (text : List UInt8) : Prop extends Holds s text where
  counted : s.count = leads text

def Tracked (s : Utf8String) : Prop := ∃ text, Tracks s text

variable {s : Utf8String} {text : List UInt8} {strs : List Utf8String} {k : Nat}

theorem Tracked.inSync (h : Tracked s) : InSync s := by
  obtain ⟨text, h⟩ := h
  constructor
  · rw [h.cstr_eq, Option.map_some, h.length]
  · rw [h.count, h.counted]
  · exact h.length_le

/-- The sum of the counts is that of the text that was put together. -/
theorem Holds.tracks (h : Holds s text) {n : Nat} (hcount : s.count = n % 2 ^ 64)
    (hn : n = leads text) : Tracks s text := by
  refine ⟨h, ?_⟩
  have hle := leads_le_length text
  have hlt := h.length_lt
  rw [hcount, hn, Nat.mod_eq_of_lt (by omega)]

theorem sizeSub_of_le {a b : Nat} (hb : b ≤ a) (ha : a < 2 ^ 64) : sizeSub a b = a - b := by
  unfold sizeSub
  have hpos : (0 : Int) ≤ (a : Int) - b := by omega
  have hlt : (a : Int) - b < 2 ^ 64 := by omega
  rw [Int.emod_eq_of_lt hpos hlt]
  omega

/-! ## One call on one string -/

theorem append_tracked (h : Tracked s) {d : CString} (hd : Whole d) :
    ∃ r, utf8Append s d.mem = some r ∧ Tracked r.1 := by
  obtain ⟨text, h⟩ := h
  rcases utf8Append_spec h.toHolds d with ⟨-, heq⟩ | ⟨s', heq, hs', hcount⟩
  · exact ⟨_, heq, text, h⟩
  · refine ⟨_, heq, _, hs'.tracks hcount ?_⟩
    rw [leads_append, h.counted, hd]

theorem insert_tracked (h : Tracked s) {d : CString} {index : Nat}
    (hd : index ≤ s.length → validLen d ≠ 0 → Whole d) :
    ∃ r, utf8Insert s index d.mem = some r ∧ Tracked r.1 := by
  obtain ⟨text, h⟩ := h
  by_cases hi : index ≤ text.length
  · rcases utf8Insert_spec h.toHolds d hi with ⟨heq, -⟩ | ⟨-, heq⟩ | ⟨s', heq, hpos, hs', hcount⟩
    · exact ⟨_, heq, text, h⟩
    · exact ⟨_, heq, text, h⟩
    · have hwhole : leads d.bytes = leads (d.bytes.take (validLen d)) := hd (h.length ▸ hi) hpos
      have hsplit := leads_take_add_drop text index
      refine ⟨_, heq, _, hs'.tracks hcount ?_⟩
      rw [leads_append, leads_append, h.counted, ← hsplit, hwhole]
      omega
  · refine ⟨_, if_pos ?_, text, h⟩
    rw [h.length]
    omega

theorem remove_tracked (h : Tracked s) {index count : Nat}
    (hd : EvenPieces (cstrOf s.data) index count) :
    ∃ r, utf8Remove s index count = some r ∧ Tracked r.1 := by
  obtain ⟨text, h⟩ := h
  rw [h.cstrOf_eq, EvenPieces] at hd
  by_cases hi : index ≥ s.length ∨ count = 0
  · exact ⟨_, if_pos hi, text, h⟩
  · rw [not_or, h.length] at hi
    obtain ⟨s', heq, hs', hcount⟩ := utf8Remove_spec h.toHolds (Nat.lt_of_not_le hi.1) hi.2
    obtain ⟨tail, htail⟩ := pieceBytes_prefix count (text.drop index)
    generalize pieceBytes count (text.drop index) = gone at *
    -- the text is its front, the pieces and what stands behind them
    have hdrop : text.drop (index + gone.length) = tail := by
      rw [← List.drop_drop, ← htail, List.drop_left]
    have hleads : leads text = leads (text.take index) + (leads gone + leads tail) := by
      rw [← leads_append, htail, leads_take_add_drop]
    have hlt := h.length_lt
    have hle := leads_le_length text
    refine ⟨_, heq, _, hs', ?_⟩
    rw [hcount, hdrop, leads_append, h.counted, ← hd, sizeSub_of_le (by omega) (by omega)]
    omega

/-- A replacement at an occurrence. -/
theorem replaceAt_tracked (h : Tracks s text) {oldStr newStr : CString} {offset : Nat}
    (hb : Balanced oldStr newStr) (hocc : oldStr.bytes <+: text.drop offset)
    (hoff : offset ≤ text.length) :
    replaceAt s ⟨validLen oldStr, validLen newStr, leads oldStr.bytes, leads newStr.bytes⟩
        newStr.mem offset = some none ∨
    ∃ s', replaceAt s ⟨validLen oldStr, validLen newStr, leads oldStr.bytes, leads newStr.bytes⟩
        newStr.mem offset = some (some s') ∧
      Tracks s' (text.take offset ++ newStr.bytes.take (validLen newStr) ++
        text.drop (offset + validLen oldStr)) := by
  have hvalid := (utf8ValidByteCount_eq oldStr).2
  have hlen := hocc.length_le
  rw [List.length_drop] at hlen
  rcases replaceAt_spec h.toHolds oldStr newStr offset (by omega) with
    ⟨-, -, heq⟩ | ⟨s', heq, hs', hcount⟩
  · exact .inl heq
  · refine .inr ⟨s', heq, hs'.tracks hcount ?_⟩
    obtain ⟨tail, htail⟩ := hocc
    -- the stored part of the old string is what goes, all of it is what is counted
    have hdrop : text.drop (offset + validLen oldStr) =
        oldStr.bytes.drop (validLen oldStr) ++ tail := by
      rw [← List.drop_drop, ← htail, List.drop_append_of_le_length hvalid]
    have hleads : leads text = leads (text.take offset) + (leads oldStr.bytes + leads tail) := by
      rw [← leads_append, htail, leads_take_add_drop]
    have hold := leads_take_add_drop oldStr.bytes (validLen oldStr)
    have hlt := h.length_lt
    have hle := leads_le_length text
    unfold Balanced at hb
    rw [h.counted, sizeSub_of_le (by omega) (by omega), hdrop, leads_append, leads_append,
      leads_append]
    omega

theorem replace_tracked (h : Tracked s) {oldStr newStr : CString}
    (hb : findSub oldStr.bytes (cstrOf s.data) ≠ none → Balanced oldStr newStr) :
    ∃ r, utf8Replace s oldStr.mem newStr.mem = some r ∧ Tracked r.1 := by
  obtain ⟨text, h⟩ := h
  rw [h.cstrOf_eq] at hb
  have hfind := strstr_eq h.toHolds oldStr (Nat.zero_le text.length)
  rw [List.drop_zero, List.drop_zero] at hfind
  rw [utf8Replace, hfind, Option.bind_some]
  cases hf : findSub oldStr.bytes text with
  | none => exact ⟨_, rfl, text, h⟩
  | some offset =>
    obtain ⟨hoff, hocc, -⟩ := findSub_eq_some_iff.mp hf
    have hbal := hb (by rw [hf]; exact Option.some_ne_none offset)
    simp only [measure_eq, Option.bind_some]
    rcases replaceAt_tracked h hbal hocc hoff with heq | ⟨s', heq, hs'⟩
    · rw [heq]
      exact ⟨_, rfl, text, h⟩
    · rw [heq]
      exact ⟨_, rfl, _, hs'⟩

/-- The loop of `utf8_replace_all` returns: the bytes behind the cursor get fewer. -/
theorem replaceAllLoop_tracked {oldStr newStr : CString} (hpos : validLen oldStr ≠ 0)
    {fuel cursor n : Nat} (h : Tracks s text) (hcursor : cursor ≤ text.length)
    (hb : findSub oldStr.bytes (text.drop cursor) ≠ none → Balanced oldStr newStr)
    (hfuel : text.length - cursor < fuel) :
    ∃ r, replaceAllLoop ⟨validLen oldStr, validLen newStr, leads oldStr.bytes,
      leads newStr.bytes⟩ oldStr.mem newStr.mem fuel s cursor n = some r ∧ Tracked r.1 := by
  induction fuel generalizing s text cursor n with
  | zero => omega
  | succ fuel ih =>
    rw [replaceAllLoop, strstr_eq h.toHolds oldStr hcursor, Option.bind_some]
    cases hf : findSub oldStr.bytes (text.drop cursor) with
    | none => exact ⟨_, rfl, text, h⟩
    | some i =>
      obtain ⟨hi, hocc, -⟩ := findSub_eq_some_iff.mp hf
      have hbal := hb (by rw [hf]; exact Option.some_ne_none i)
      have hvalid := (utf8ValidByteCount_eq oldStr).2
      rw [List.drop_drop] at hocc
      have hlen := hocc.length_le
      rw [List.length_drop] at hi hlen
      simp only
      rcases replaceAt_tracked h hbal hocc (by omega) with heq | ⟨s', heq, hs'⟩
      · rw [heq]
        exact ⟨_, rfl, text, h⟩
      · rw [heq]
        have hnew := length_take_validLen newStr
        rw [List.length_take] at hnew
        apply ih hs' _ (fun _ => hbal)
        · simp only [List.length_append, List.length_take, List.length_drop]
          omega
        · simp only [List.length_append, List.length_take, List.length_drop]
          omega

theorem replaceAll_tracked (h : Tracked s) {oldStr newStr : CString}
    (hb : validLen oldStr ≠ 0 → findSub oldStr.bytes (cstrOf s.data) ≠ none →
      Balanced oldStr newStr) :
    ∃ r, utf8ReplaceAll s oldStr.mem newStr.mem = some r ∧ Tracked r.1 := by
  obtain ⟨text, h⟩ := h
  rw [h.cstrOf_eq] at hb
  rw [utf8ReplaceAll, measure_eq, Option.bind_some, h.length]
  simp only
  split
  · exact ⟨_, rfl, text, h⟩
  · next hpos =>
    exact replaceAllLoop_tracked hpos h (Nat.zero_le _) (by simpa using hb hpos) (by omega)

/-! ## Runs -/

theorem callAt_tracked {α : Type} {f : Utf8String → Option (Utf8String × α)}
    (h : ∀ s ∈ strs, Tracked s)
    (hf : ∀ s, strs[k]? = some s → Tracked s → ∃ r, f s = some r ∧ Tracked r.1) :
    ∃ strs', callAt strs k f = some strs' ∧ ∀ s ∈ strs', Tracked s := by
  unfold callAt
  cases hk : strs[k]? with
  | none => exact ⟨strs, rfl, h⟩
  | some s =>
    obtain ⟨r, hr, htracked⟩ := hf s hk (h s (List.mem_of_getElem? hk))
    simp only [hr, Option.map_some]
    refine ⟨_, rfl, ?_⟩
    intro s' hs'
    rcases List.mem_or_eq_of_mem_set hs' with hold | rfl
    · exact h s' hold
    · exact htracked

theorem mem_append_toList {r : Option Utf8String} (h : ∀ s ∈ strs, Tracked s)
    (hr : ∀ s, r = some s → Tracked s) : ∀ s ∈ strs ++ r.toList, Tracked s := by
  intro s hs
  rcases List.mem_append.mp hs with hold | hnew
  · exact h s hold
  · exact hr s (Option.mem_toList.mp hnew)

/-- Every call returns, and keeps all strings tracked if its measures agree. -/
theorem step_tracks {call : StringCall} (h : ∀ s ∈ strs, Tracked s) (hc : Counted strs call) :
    ∃ strs', call.run strs = some strs' ∧ ∀ s ∈ strs', Tracked s := by
  cases call with
  | new data =>
    rcases utf8New_spec data with ⟨-, heq⟩ | ⟨s, heq, hs, hcount⟩
    · refine ⟨_, by rw [StringCall.run, heq, Option.map_some], mem_append_toList h ?_⟩
      simp
    · refine ⟨_, by rw [StringCall.run, heq, Option.map_some], mem_append_toList h ?_⟩
      rintro _ ⟨⟩
      exact ⟨_, hs, hcount⟩
  | append k data => exact callAt_tracked h fun s _ ht => append_tracked ht hc
  | insert k index data => exact callAt_tracked h fun s hk ht => insert_tracked ht (hc s hk)
  | remove k index count => exact callAt_tracked h fun s hk ht => remove_tracked ht (hc s hk)
  | replace k oldStr newStr => exact callAt_tracked h fun s hk ht => replace_tracked ht (hc s hk)
  | replaceAll k oldStr newStr =>
    exact callAt_tracked h fun s hk ht => replaceAll_tracked ht (hc s hk)
  | concat j k =>
    simp only [StringCall.run]
    split
    · next s₁ s₂ hj hk =>
      obtain ⟨t₁, h₁⟩ := h s₁ (List.mem_of_getElem? hj)
      obtain ⟨t₂, h₂⟩ := h s₂ (List.mem_of_getElem? hk)
      rcases utf8Concat_spec h₁.toHolds h₂.toHolds with ⟨-, heq⟩ | ⟨s, heq, hs, hcount⟩
      · refine ⟨_, by rw [heq, Option.map_some], mem_append_toList h ?_⟩
        simp
      · refine ⟨_, by rw [heq, Option.map_some], mem_append_toList h ?_⟩
        rintro _ ⟨⟩
        refine ⟨_, hs.tracks hcount ?_⟩
        rw [leads_append, h₁.counted, h₂.counted]
    · exact ⟨strs, rfl, h⟩

theorem runCalls_tracked {calls : List StringCall} (h : ∀ s ∈ strs, Tracked s)
    (hc : AllCounted strs calls) :
    ∃ strs', runCalls strs calls = some strs' ∧ ∀ s ∈ strs', Tracked s := by
  induction calls generalizing strs with
  | nil => exact ⟨strs, rfl, h⟩
  | cons call calls ih =>
    obtain ⟨strs', hrun, htracked⟩ := step_tracks h hc.1
    obtain ⟨strs'', hruns, hall⟩ := ih htracked (hc.2 strs' hrun)
    exact ⟨strs'', by rw [runCalls, hrun, Option.bind_some, hruns], hall⟩

theorem AllCounted.of_prefix {calls pre : List StringCall} (hc : AllCounted strs calls)
    (hp : pre <+: calls) : AllCounted strs pre := by
  induction calls generalizing strs pre with
  | nil =>
    rw [List.prefix_nil.mp hp]
    trivial
  | cons call calls ih =>
    cases pre with
    | nil => trivial
    | cons first pre =>
      obtain ⟨rfl, hp'⟩ := List.cons_prefix_cons.mp hp
      exact ⟨hc.1, fun strs' hrun => ih (hc.2 strs' hrun) hp'⟩

/-- In every run whose calls have agreeing measures, no call leaves a buffer, and in every state
it goes through the metadata of every string describe its data. -/
theorem runCalls_inSync (calls : List StringCall) (hc : AllCounted [] calls) :
    ∀ pre, pre <+: calls → ∃ strs, runCalls [] pre = some strs ∧ ∀ s ∈ strs, InSync s := by
  intro pre hp
  obtain ⟨strs, hrun, htracked⟩ := runCalls_tracked (by simp) (hc.of_prefix hp)
  exact ⟨strs, hrun, fun s hs => (htracked s hs).inSync⟩

/-- The empty string. -/
def emptyText : CString := ⟨[], nul_not_mem_nil⟩

/-- A lone continuation byte in front of a letter: one valid byte, one leading byte, and they are
not the same one. -/
def strayText : CString := ⟨[0x80, 0x61], by decide⟩

def accentText : CString := ⟨[0xC3, 0xA9], by decide⟩

theorem runCalls_inSync_accent : AllCounted [] [.new emptyText, .append 0 accentText] ∧
    ∀ pre, pre <+: [.new emptyText, .append 0 accentText] →
      ∃ strs, runCalls [] pre = some strs ∧ ∀ s ∈ strs, InSync s := by
  have hc : AllCounted [] [.new emptyText, .append 0 accentText] := by
    refine ⟨trivial, fun strs _ => ⟨?_, fun _ _ => trivial⟩⟩
    show leads _ = leads _
    decide +kernel
  exact ⟨hc, runCalls_inSync _ hc⟩

/-- Appending it stores the continuation byte alone and counts the letter. -/
theorem not_inSync_append :
    ¬ ∀ calls strs, runCalls [] calls = some strs → ∀ s ∈ strs, InSync s := by
  intro h
  have hrun : (runCalls [] [.new emptyText, .append 0 strayText]).map
      (fun strs => strs.map fun s => (utf8CountCodepoints s.data, s.count)) =
      some [(some 0, 1)] := by decide +kernel
  obtain ⟨strs, hstrs, hs⟩ := Option.map_eq_some_iff.mp hrun
  obtain ⟨s, hmem, heq⟩ := List.mem_map.mp (hs ▸ List.mem_singleton_self _)
  have hsync := (h _ strs hstrs s hmem).codepoints
  obtain ⟨h0, h1⟩ := Prod.mk.inj heq
  rw [h0, h1] at hsync
  cases hsync

end Solidc.Unicode
