import Solidc.Filepath.Walk
import Mathlib.Data.List.Infix

/-! # Stopping a walk

The callback of a walk may return `DirStop`. The loop that called it ends, but a nested walk
returns as if it were complete, and the walk around it goes on.

* `dirWalkUntilStop`, `depthFirstUntilStop` — a walk up to the first `DirStop`, and what the
  directories around that entry have left;
* `Follows` — how the code goes on from there;
* `stopsAtOnce_iff` — the callback is not called again exactly when nothing is left to report.
-/

namespace Solidc.Filepath

variable {σ : Type*}

/-- No call follows one that returned `DirStop`. -/
def StopsAtOnce (calls : List Call) : Prop :=
  ∀ before c after, calls = before ++ c :: after → c.opt = .dirStop → after = []

/-- A directory that is being walked, and its names that have not been looked at. -/
abbrev Frame : Type := Path × List Path

/-- A walk up to the first `DirStop`. -/
inductive Until (σ : Type*) where
  | returned (data : σ) (status : Int)
  | exhausted
  /-- With the directories around the one where the callback stopped, from the inside out. -/
  | stopped (outer : List Frame)

/-- A nested walk, and what comes after it in `frame`. -/
def Until.andThen (u : Until σ) (frame : Frame) (next : σ → Until σ) : Until σ :=
  match u with
  | .exhausted => .exhausted
  | .stopped outer => .stopped (outer ++ [frame])
  | .returned d status => if status ≠ 0 then .returned d (-1) else next d

/-! ## The walks up to the first stop -/

/-- What `dir_walk` does about a name. -/
inductive Visit where
  | pass
  | tooLong
  | entry (attr : FileAttributes) (fullpath : Path)

def visit (fs : FileSystem) (path name : Path) : Visit :=
  if isDots name then .pass
  else
    match filepathJoinBuf path name filenameMax with
    | (_, false) => .tooLong
    | (fullpath, true) =>
      match walkAttrs fs name fullpath with
      | none => .pass
      | some attr => .entry attr fullpath

def walkUntilStopLoop (fs : FileSystem) (callback : WalkDirCallback σ) (walk : Path → σ → Until σ)
    (path : Path) : List Path → σ → Until σ
  | [], d => .returned d 0
  | name :: names, d =>
    match visit fs path name with
    | .pass => walkUntilStopLoop fs callback walk path names d
    | .tooLong => .returned d (-1)
    | .entry attr fullpath =>
      match callback attr fullpath name d with
      | (.dirStop, _) => .stopped []
      | (.dirError, d') => .returned d' (-1)
      | (.dirSkip, d') => walkUntilStopLoop fs callback walk path names d'
      | (.dirContinue, d') =>
        if attr.isDir then
          (walk fullpath d').andThen (path, names) (walkUntilStopLoop fs callback walk path names)
        else walkUntilStopLoop fs callback walk path names d'

/-- `dir_walk` up to the first `DirStop`. -/
def dirWalkUntilStop (fs : FileSystem) (callback : WalkDirCallback σ) : Nat → Path → σ → Until σ
  | 0, _, _ => .exhausted
  | depth + 1, path, d =>
    if path = [] then .returned d (-1)
    else
      match fs.dirOpen path with
      | none => .returned d (-1)
      | some names => walkUntilStopLoop fs callback (dirWalkUntilStop fs callback depth) path names d

/-- What `dir_walk_depth_first` does about a name: it reports what it can examine. -/
def depthFirstVisit (fs : FileSystem) (path name : Path) : Option (FileAttributes × Path) :=
  if isDots name then none
  else
    (depthFirstAttrs fs name (filepathJoinBuf path name filenameMax).1).map fun attr =>
      (attr, (filepathJoinBuf path name filenameMax).1)

def depthFirstUntilStopLoop (fs : FileSystem) (callback : WalkDirCallback σ)
    (walk : Path → σ → Until σ) (path : Path) : List Path → σ → Until σ
  | [], d => .returned d 0
  | name :: names, d =>
    match depthFirstVisit fs path name with
    | none => depthFirstUntilStopLoop fs callback walk path names d
    | some (attr, fullpath) =>
      (if attr.isDir then walk fullpath d else .returned d 0).andThen (path, name :: names)
        fun d =>
          match callback attr fullpath name d with
          | (.dirStop, _) => .stopped []
          | (.dirError, d') => .returned d' (-1)
          | (.dirSkip, d') | (.dirContinue, d') =>
            depthFirstUntilStopLoop fs callback walk path names d'

/-- `dir_walk_depth_first` up to the first `DirStop`. -/
def depthFirstUntilStop (fs : FileSystem) (callback : WalkDirCallback σ) : Nat → Path → σ → Until σ
  | 0, _, _ => .exhausted
  | depth + 1, path, d =>
    if path = [] then .returned d (-1)
    else
      match fs.dirOpen path with
      | none => .returned d (-1)
      | some names =>
        depthFirstUntilStopLoop fs callback (depthFirstUntilStop fs callback depth) path names d

/-! ## What is left -/

/-- The status with which `dir_walk` gets to the end of these names, or to one whose path is too
long, when none of them is to be reported; `none` if one is. -/
def silentStatus (fs : FileSystem) (path : Path) : List Path → Option Int
  | [] => some 0
  | name :: names =>
    match visit fs path name with
    | .pass => silentStatus fs path names
    | .tooLong => some (-1)
    | .entry .. => none

/-- The same over the rest of several directories, from the inside out. -/
def quietStatus (fs : FileSystem) : List Frame → Option Int
  | [] => some 0
  | (path, names) :: outer =>
    match silentStatus fs path names with
    | none => none
    | some status => if status ≠ 0 then some (-1) else quietStatus fs outer

/-- `dir_walk_depth_first` always reports the directory it returns from. -/
def noneLeft (outer : List Frame) : Option Int := if outer = [] then some 0 else none

/-- Where the callback first stops, nothing is left to report around it. -/
def Until.Settled (quiet : List Frame → Option Int) (u : Until σ) : Prop :=
  ∀ outer, u = .stopped outer → (quiet outer).isSome

/-- How a walk from `w` goes on after the first `DirStop`. -/
inductive Follows (quiet : List Frame → Option Int) (w : Walk σ) :
    Until σ → Walk σ × Option Int → Prop
  | returned {w' : Walk σ} {status : Int} (calls : List Call)
      (hcalls : w'.calls = w.calls ++ calls) (hgo : ∀ c ∈ calls, c.opt ≠ .dirStop) :
      Follows quiet w (.returned w'.data status) (w', some status)
  | exhausted {w' : Walk σ} (calls : List Call)
      (hcalls : w'.calls = w.calls ++ calls) (hgo : ∀ c ∈ calls, c.opt ≠ .dirStop) :
      Follows quiet w .exhausted (w', none)
  | stopped {w' : Walk σ} {status : Option Int} {outer : List Frame} (calls after : List Call)
      (c : Call) (hcalls : w'.calls = w.calls ++ (calls ++ c :: after))
      (hgo : ∀ c ∈ calls, c.opt ≠ .dirStop) (hstop : c.opt = .dirStop)
      (hafter : after = [] ↔ (quiet outer).isSome) (hstatus : after = [] → status = quiet outer) :
      Follows quiet w (.stopped outer) (w', status)

section Rules

variable {quiet : List Frame → Option Int} {w : Walk σ} {u : Until σ} {r : Walk σ × Option Int}

/-- Calls that do not stop, in front. -/
theorem Follows.prepend {w₁ : Walk σ} (calls : List Call) (h₁ : w₁.calls = w.calls ++ calls)
    (hgo₁ : ∀ c ∈ calls, c.opt ≠ .dirStop) (h : Follows quiet w₁ u r) : Follows quiet w u r := by
  have hmem : ∀ {more : List Call}, (∀ c ∈ more, c.opt ≠ .dirStop) →
      ∀ c ∈ calls ++ more, c.opt ≠ .dirStop := by
    intro more hmore c hc
    rcases List.mem_append.mp hc with hc | hc
    · exact hgo₁ c hc
    · exact hmore c hc
  cases h with
  | returned more hcalls hgo =>
    exact .returned (calls ++ more) (by rw [hcalls, h₁, List.append_assoc]) (hmem hgo)
  | exhausted more hcalls hgo =>
    exact .exhausted (calls ++ more) (by rw [hcalls, h₁, List.append_assoc]) (hmem hgo)
  | stopped more after c hcalls hgo hstop hafter hstatus =>
    exact .stopped (calls ++ more) after c (by rw [hcalls, h₁]; simp)
      (hmem hgo) hstop hafter hstatus

theorem Follows.refl (w : Walk σ) (status : Int) :
    Follows quiet w (.returned w.data status) (w, some status) :=
  .returned [] (List.append_nil _).symm (by simp)

/-- The walk starts without calls. -/
theorem Follows.stops_iff {data : σ} (h : Follows quiet ⟨data, []⟩ u r) :
    StopsAtOnce r.1.calls ↔ u.Settled quiet := by
  have hnone : ∀ {calls : List Call}, (∀ c ∈ calls, c.opt ≠ .dirStop) → StopsAtOnce calls := by
    intro calls hgo before c after heq hc
    exact absurd hc (hgo c (heq ▸ by simp))
  cases h with
  | returned calls hcalls hgo => exact iff_of_true (hcalls ▸ hnone hgo) nofun
  | exhausted calls hcalls hgo => exact iff_of_true (hcalls ▸ hnone hgo) nofun
  | @stopped w' status outer calls after c hcalls hgo hstop hafter hstatus =>
    have hcalls' : w'.calls = calls ++ c :: after := hcalls
    constructor
    · intro h outer' houter
      cases houter
      exact hafter.mp (h calls c after hcalls' hstop)
    · intro h before c' after' heq hc'
      have hnil := hafter.mpr (h outer rfl)
      subst hnil
      -- the stop is the last call, and no call before it stops
      rcases List.eq_nil_or_concat after' with hnil | ⟨rest, last, rfl⟩
      · exact hnil
      · have hinit : calls = before ++ c' :: rest := by
          have hboth := hcalls'.symm.trans heq
          rw [List.concat_eq_append, ← List.cons_append, ← List.append_assoc] at hboth
          exact (List.append_inj' hboth rfl).1
        exact absurd hc' (hgo c' (hinit ▸ by simp))

end Rules

variable {fs : FileSystem} {callback : WalkDirCallback σ} {path : Path} {names : List Path}
  {outer : List Frame}

theorem quietStatus_singleton : quietStatus fs [(path, names)] = silentStatus fs path names := by
  induction names with
  | nil => rfl
  | cons name names ih =>
    rw [quietStatus] at ih ⊢
    rw [silentStatus]
    cases visit fs path name with
    | pass => exact ih
    | tooLong => rfl
    | entry => rfl

/-- The directories further out count only when the walk gets back to them. -/
theorem quietStatus_append (outer' : List Frame) :
    quietStatus fs (outer ++ outer') =
      (quietStatus fs outer).bind fun status =>
        if status ≠ 0 then some (-1) else quietStatus fs outer' := by
  induction outer with
  | nil => rfl
  | cons frame outer ih =>
    rw [List.cons_append, quietStatus, quietStatus]
    cases silentStatus fs frame.1 frame.2 with
    | none => rfl
    | some status =>
      by_cases hstatus : status ≠ 0
      · simp [hstatus]
      · simpa [hstatus] using ih

/-! ## `dir_walk` -/

section DirWalk

variable {walk : Path → Walk σ → Walk σ × Option Int} {walkUntil : Path → σ → Until σ}
  {name : Path} {w : Walk σ} {attr : FileAttributes} {fullpath : Path}

/-- The loop of `dir_walk` after a nested walk. -/
def afterWalk (r : Walk σ × Option Int) (next : Walk σ → Walk σ × Option Int) :
    Walk σ × Option Int :=
  match r with
  | (w', none) => (w', none)
  | (w', some status) => if status ≠ 0 then (w', some (-1)) else next w'

/-- The loop of `dir_walk` from the call of the callback on. -/
def reportEntry (callback : WalkDirCallback σ) (walk : Path → Walk σ → Walk σ × Option Int)
    (attr : FileAttributes) (fullpath name : Path) (next : Walk σ → Walk σ × Option Int)
    (w : Walk σ) : Walk σ × Option Int :=
  match (callback attr fullpath name w.data).1 with
  | .dirStop => (w.call callback attr fullpath name, some 0)
  | .dirError => (w.call callback attr fullpath name, some (-1))
  | .dirSkip => next (w.call callback attr fullpath name)
  | .dirContinue =>
    if attr.isDir then afterWalk (walk fullpath (w.call callback attr fullpath name)) next
    else next (w.call callback attr fullpath name)

theorem dirWalkLoop_cons : dirWalkLoop fs callback walk path (name :: names) w =
    match visit fs path name with
    | .pass => dirWalkLoop fs callback walk path names w
    | .tooLong => (w, some (-1))
    | .entry attr fullpath => reportEntry callback walk attr fullpath name
        (dirWalkLoop fs callback walk path names) w := by
  rw [dirWalkLoop, visit]
  by_cases hdots : isDots name
  · simp only [hdots, if_true]
  · simp only [hdots, if_false, Bool.false_eq_true]
    obtain ⟨fullpath, ok⟩ := filepathJoinBuf path name filenameMax
    cases ok with
    | false => rfl
    | true =>
      cases hattr : walkAttrs fs name fullpath with
      | none => simp only [hattr]
      | some attr =>
        simp only [hattr]
        rfl

theorem afterWalk_calls {next : Walk σ → Walk σ × Option Int}
    (hnext : ∀ w, w.calls <+: (next w).1.calls) (r : Walk σ × Option Int) :
    r.1.calls <+: (afterWalk r next).1.calls := by
  obtain ⟨w', _ | status⟩ := r
  · exact List.prefix_rfl
  · rw [afterWalk]
    split
    · exact List.prefix_rfl
    · exact hnext w'

/-- The call is made whatever its answer, and the rest of the walk only adds to it. -/
theorem reportEntry_calls {next : Walk σ → Walk σ × Option Int}
    (hwalk : ∀ p w, w.calls <+: (walk p w).1.calls) (hnext : ∀ w, w.calls <+: (next w).1.calls) :
    (w.call callback attr fullpath name).calls <+:
      (reportEntry callback walk attr fullpath name next w).1.calls := by
  rw [reportEntry]
  cases (callback attr fullpath name w.data).1 with
  | dirStop => exact List.prefix_rfl
  | dirError => exact List.prefix_rfl
  | dirSkip => exact hnext _
  | dirContinue =>
    by_cases hdir : attr.isDir
    · simpa only [if_pos hdir] using (hwalk fullpath _).trans (afterWalk_calls hnext _)
    · simpa only [if_neg hdir] using hnext _

/-- Calls are only added. -/
theorem dirWalkLoop_calls (hwalk : ∀ p w, w.calls <+: (walk p w).1.calls) (w : Walk σ) :
    w.calls <+: (dirWalkLoop fs callback walk path names w).1.calls := by
  induction names generalizing w with
  | nil => exact List.prefix_rfl
  | cons name names ih =>
    rw [dirWalkLoop_cons]
    cases visit fs path name with
    | pass => exact ih w
    | tooLong => exact List.prefix_rfl
    | entry attr fullpath => exact (List.prefix_append ..).trans (reportEntry_calls hwalk ih)

theorem dirWalk_calls (depth : Nat) (path : Path) (w : Walk σ) :
    w.calls <+: (dirWalk fs callback depth path w).1.calls := by
  induction depth generalizing path w with
  | zero => exact List.prefix_rfl
  | succ depth ih =>
    rw [dirWalk]
    split
    · exact List.prefix_rfl
    · cases fs.dirOpen path with
      | none => exact List.prefix_rfl
      | some names => exact dirWalkLoop_calls ih w

/-- Names of which none is to be reported. -/
theorem dirWalkLoop_silent {status : Int} (h : silentStatus fs path names = some status)
    (w : Walk σ) : dirWalkLoop fs callback walk path names w = (w, some status) := by
  induction names with
  | nil =>
    cases h
    rfl
  | cons name names ih =>
    rw [dirWalkLoop_cons]
    rw [silentStatus] at h
    cases hvisit : visit fs path name with
    | pass =>
      rw [hvisit] at h
      exact ih h
    | tooLong =>
      rw [hvisit] at h
      cases h
      rfl
    | entry => simp [hvisit] at h

/-- Names of which one is to be reported. -/
theorem dirWalkLoop_reports (hwalk : ∀ p w, w.calls <+: (walk p w).1.calls)
    (h : silentStatus fs path names = none) (w : Walk σ) :
    ∃ c calls, (dirWalkLoop fs callback walk path names w).1.calls = w.calls ++ c :: calls := by
  induction names with
  | nil => exact absurd h nofun
  | cons name names ih =>
    rw [dirWalkLoop_cons]
    rw [silentStatus] at h
    cases hvisit : visit fs path name with
    | pass =>
      rw [hvisit] at h
      exact ih h
    | tooLong => simp [hvisit] at h
    | entry attr fullpath =>
      obtain ⟨more, hmore⟩ : (w.call callback attr fullpath name).calls <+:
          (reportEntry callback walk attr fullpath name
            (dirWalkLoop fs callback walk path names) w).1.calls :=
        reportEntry_calls hwalk (dirWalkLoop_calls hwalk)
      exact ⟨_, _, hmore.symm.trans (List.append_assoc ..)⟩

/-- After a nested walk, with the names that the directory around it has left. -/
theorem Follows.afterNested {u : Until σ} {r : Walk σ × Option Int}
    (h : Follows (quietStatus fs) w u r) (hwalk : ∀ p w, w.calls <+: (walk p w).1.calls)
    (hnext : ∀ w, Follows (quietStatus fs) w
      (walkUntilStopLoop fs callback walkUntil path names w.data)
      (dirWalkLoop fs callback walk path names w)) :
    Follows (quietStatus fs) w
      (u.andThen (path, names) (walkUntilStopLoop fs callback walkUntil path names))
      (afterWalk r (dirWalkLoop fs callback walk path names)) := by
  cases h with
  | @returned w' status calls hcalls hgo =>
    rw [Until.andThen, afterWalk]
    by_cases hstatus : status ≠ 0
    · simp only [if_pos hstatus]
      exact .returned calls hcalls hgo
    · simp only [if_neg hstatus]
      exact (hnext w').prepend calls hcalls hgo
  | exhausted calls hcalls hgo => exact .exhausted calls hcalls hgo
  | @stopped w' status outer calls after c hcalls hgo hstop hafter hstatus =>
    have hquiet : quietStatus fs (outer ++ [(path, names)]) =
      (quietStatus fs outer).bind fun status =>
        if status ≠ 0 then some (-1) else silentStatus fs path names := by
      rw [quietStatus_append, quietStatus_singleton]
    by_cases hlast : after = []
    · -- the stop is the last call so far: what comes now is what the names have left
      subst hlast
      obtain ⟨s, hs⟩ := Option.isSome_iff_exists.mp (hafter.mp rfl)
      have hstatus' : status = some s := (hstatus rfl).trans hs
      rw [hs, Option.bind_some] at hquiet
      subst hstatus'
      rw [Until.andThen, afterWalk]
      by_cases hzero : s ≠ 0
      · simp only [if_pos hzero] at hquiet ⊢
        exact .stopped calls [] c hcalls hgo hstop (by simp [hquiet]) fun _ => hquiet.symm
      · simp only [if_neg hzero] at hquiet ⊢
        cases hsilent : silentStatus fs path names with
        | some t =>
          rw [dirWalkLoop_silent hsilent]
          exact .stopped calls [] c hcalls hgo hstop (by simp [hquiet, hsilent]) fun _ =>
            (hquiet.trans hsilent).symm
        | none =>
          obtain ⟨c', more, hmore⟩ : ∃ c' more,
              (dirWalkLoop fs callback walk path names w').1.calls = w'.calls ++ c' :: more :=
            dirWalkLoop_reports hwalk hsilent w'
          refine .stopped calls (c' :: more) c ?_ hgo hstop (by simp [hquiet, hsilent]) nofun
          rw [hmore, hcalls]
          simp
    · -- there have been more calls
      have hnone : quietStatus fs outer = none :=
        Option.not_isSome_iff_eq_none.mp fun h => hlast (hafter.mpr h)
      rw [hnone, Option.bind_none] at hquiet
      have hmore : ∀ {status' : Option Int} {w'' : Walk σ}, w'.calls <+: w''.calls →
          Follows (quietStatus fs) w (.stopped (outer ++ [(path, names)])) (w'', status') := by
        intro status' w'' ⟨more, hmore⟩
        refine .stopped calls (after ++ more) c ?_ hgo hstop (by simp [hquiet, hlast])
          (by simp [hlast])
        rw [← hmore, hcalls]
        simp
      exact hmore (afterWalk_calls (dirWalkLoop_calls hwalk) (w', status))

theorem walkUntilStopLoop_follows
    (hwalk : ∀ p w, Follows (quietStatus fs) w (walkUntil p w.data) (walk p w))
    (hcalls : ∀ p w, w.calls <+: (walk p w).1.calls) (w : Walk σ) :
    Follows (quietStatus fs) w (walkUntilStopLoop fs callback walkUntil path names w.data)
      (dirWalkLoop fs callback walk path names w) := by
  induction names generalizing w with
  | nil => exact .refl w 0
  | cons name names ih =>
    rw [dirWalkLoop_cons, walkUntilStopLoop]
    cases visit fs path name with
    | pass => exact ih w
    | tooLong => exact .refl w (-1)
    | entry attr fullpath =>
      simp only [reportEntry]
      rcases hopt : callback attr fullpath name w.data with ⟨opt, d'⟩
      have hcall : (w.call callback attr fullpath name).calls =
          w.calls ++ [⟨attr, fullpath, name, opt⟩] := by rw [Walk.call, hopt]
      have hdata : (w.call callback attr fullpath name).data = d' := by rw [Walk.call, hopt]
      cases opt with
      | dirStop => exact .stopped [] [] _ hcall (by simp) rfl (by simp [quietStatus]) fun _ => rfl
      | dirError => exact hdata ▸ .returned _ hcall (by simp)
      | dirSkip => exact (hdata ▸ ih (w.call callback attr fullpath name)).prepend _ hcall (by simp)
      | dirContinue =>
        rw [← hdata]
        refine (?_ : Follows _ (w.call callback attr fullpath name) _ _).prepend _ hcall (by simp)
        by_cases hdir : attr.isDir
        · simp only [if_pos hdir]
          exact (hwalk fullpath (w.call callback attr fullpath name)).afterNested hcalls ih
        · simpa only [if_neg hdir] using ih _

theorem dirWalkUntilStop_follows (depth : Nat) (path : Path) (w : Walk σ) :
    Follows (quietStatus fs) w (dirWalkUntilStop fs callback depth path w.data)
      (dirWalk fs callback depth path w) := by
  induction depth generalizing path w with
  | zero => exact .exhausted [] (List.append_nil _).symm (by simp)
  | succ depth ih =>
    rw [dirWalkUntilStop, dirWalk]
    split
    · exact .refl w (-1)
    · cases fs.dirOpen path with
      | none => exact .refl w (-1)
      | some names => exact walkUntilStopLoop_follows ih (dirWalk_calls depth) w

end DirWalk

/-! ## `dir_walk_depth_first` -/

section DepthFirst

variable {walk : Path → Walk σ → Walk σ × Option Int} {walkUntil : Path → σ → Until σ}
  {name : Path} {w : Walk σ} {attr : FileAttributes} {fullpath : Path}

theorem depthFirstLoop_cons : depthFirstLoop fs callback walk path (name :: names) w =
    match depthFirstVisit fs path name with
    | none => depthFirstLoop fs callback walk path names w
    | some (attr, fullpath) =>
      afterWalk (if attr.isDir then walk fullpath w else (w, some 0))
        (depthFirstReport callback attr fullpath name
          (depthFirstLoop fs callback walk path names)) := by
  rw [depthFirstLoop, depthFirstVisit]
  by_cases hdots : isDots name
  · simp only [if_pos hdots]
  · simp only [if_neg hdots]
    cases depthFirstAttrs fs name (filepathJoinBuf path name filenameMax).1 with
    | none => rfl
    | some attr =>
      by_cases hdir : attr.isDir
      · simp only [Option.map_some, if_pos hdir]
        rfl
      · simp only [Option.map_some, if_neg hdir]
        rfl

/-- An entry is reported after its directory has been walked, whatever the callback did there. -/
theorem depthFirstReport_calls {next : Walk σ → Walk σ × Option Int}
    (hnext : ∀ w, w.calls <+: (next w).1.calls) (w : Walk σ) :
    (w.call callback attr fullpath name).calls <+:
      (depthFirstReport callback attr fullpath name next w).1.calls := by
  rw [depthFirstReport]
  cases (callback attr fullpath name w.data).1 with
  | dirStop => exact List.prefix_rfl
  | dirError => exact List.prefix_rfl
  | dirSkip => exact hnext _
  | dirContinue => exact hnext _

/-- Calls are only added. -/
theorem depthFirstLoop_calls (hwalk : ∀ p w, w.calls <+: (walk p w).1.calls) (w : Walk σ) :
    w.calls <+: (depthFirstLoop fs callback walk path names w).1.calls := by
  induction names generalizing w with
  | nil => exact List.prefix_rfl
  | cons name names ih =>
    rw [depthFirstLoop_cons]
    cases depthFirstVisit fs path name with
    | none => exact ih w
    | some entry =>
      have hreport : ∀ w : Walk σ, w.calls <+: (depthFirstReport callback entry.1 entry.2 name
          (depthFirstLoop fs callback walk path names) w).1.calls := fun w =>
        (List.prefix_append ..).trans (depthFirstReport_calls ih w)
      refine List.IsPrefix.trans ?_ (afterWalk_calls hreport _)
      split
      · exact hwalk _ w
      · exact List.prefix_rfl

theorem dirWalkDepthFirst_calls (depth : Nat) (path : Path) (w : Walk σ) :
    w.calls <+: (dirWalkDepthFirst fs callback depth path w).1.calls := by
  induction depth generalizing path w with
  | zero => exact List.prefix_rfl
  | succ depth ih =>
    rw [dirWalkDepthFirst]
    split
    · exact List.prefix_rfl
    · cases fs.dirOpen path with
      | none => exact List.prefix_rfl
      | some names => exact depthFirstLoop_calls ih w

/-- After a nested walk, when what comes next makes a call. -/
theorem Follows.afterNestedReport {u : Until σ} {r : Walk σ × Option Int} {frame : Frame}
    {next : Walk σ → Walk σ × Option Int} {nextUntil : σ → Until σ} (h : Follows noneLeft w u r)
    (hnext : ∀ w, Follows noneLeft w (nextUntil w.data) (next w))
    (hcalls : ∀ w, ∃ c, w.calls ++ [c] <+: (next w).1.calls) :
    Follows noneLeft w (u.andThen frame nextUntil) (afterWalk r next) := by
  cases h with
  | @returned w' status calls hcalls hgo =>
    rw [Until.andThen, afterWalk]
    by_cases hstatus : status ≠ 0
    · simp only [if_pos hstatus]
      exact .returned calls hcalls hgo
    · simp only [if_neg hstatus]
      exact (hnext w').prepend calls hcalls hgo
  | exhausted calls hcalls hgo => exact .exhausted calls hcalls hgo
  | @stopped w' status outer calls after c hcalls' hgo hstop hafter hstatus =>
    have hquiet : noneLeft (outer ++ [frame]) = none := by simp [noneLeft]
    suffices hmore : ∃ c' more, (afterWalk (w', status) next).1.calls =
        w.calls ++ (calls ++ c :: c' :: more) by
      obtain ⟨c', more, hmore⟩ := hmore
      exact .stopped calls (c' :: more) c hmore hgo hstop (by simp [hquiet]) nofun
    by_cases hlast : after = []
    · -- the nested walk returns 0 right after the stop
      subst hlast
      have houter : outer = [] := by
        by_contra hne
        simp [noneLeft, hne] at hafter
      have hstatus' : status = some 0 := (hstatus rfl).trans (by simp [noneLeft, houter])
      obtain ⟨c', more, hmore⟩ := hcalls w'
      refine ⟨c', more, ?_⟩
      rw [hstatus', afterWalk, if_neg (by simp), ← hmore, hcalls']
      simp
    · obtain ⟨c', rest, rfl⟩ := List.exists_cons_of_ne_nil hlast
      have hext : ∀ w : Walk σ, w.calls <+: (next w).1.calls := fun w =>
        (List.prefix_append ..).trans (hcalls w).choose_spec
      obtain ⟨more, hmore⟩ := afterWalk_calls hext (w', status)
      refine ⟨c', rest ++ more, ?_⟩
      rw [← hmore, hcalls']
      simp

theorem depthFirstUntilStopLoop_follows
    (hwalk : ∀ p w, Follows noneLeft w (walkUntil p w.data) (walk p w))
    (hcalls : ∀ p w, w.calls <+: (walk p w).1.calls) (w : Walk σ) :
    Follows noneLeft w (depthFirstUntilStopLoop fs callback walkUntil path names w.data)
      (depthFirstLoop fs callback walk path names w) := by
  induction names generalizing w with
  | nil => exact .refl w 0
  | cons name names ih =>
    rw [depthFirstLoop_cons, depthFirstUntilStopLoop]
    cases depthFirstVisit fs path name with
    | none => exact ih w
    | some entry =>
      obtain ⟨attr, fullpath⟩ := entry
      refine Follows.afterNestedReport ?_ (fun w => ?_) fun w => ?_
      · split
        · exact hwalk fullpath w
        · exact .refl w 0
      · rw [depthFirstReport]
        rcases hopt : callback attr fullpath name w.data with ⟨opt, d'⟩
        have hcall : (w.call callback attr fullpath name).calls =
            w.calls ++ [⟨attr, fullpath, name, opt⟩] := by rw [Walk.call, hopt]
        have hdata : (w.call callback attr fullpath name).data = d' := by rw [Walk.call, hopt]
        cases opt with
        | dirStop => exact .stopped [] [] _ hcall (by simp) rfl (by simp [noneLeft]) fun _ => rfl
        | dirError => exact hdata ▸ .returned _ hcall (by simp)
        | dirSkip => exact (hdata ▸ ih _).prepend _ hcall (by simp)
        | dirContinue => exact (hdata ▸ ih _).prepend _ hcall (by simp)
      · exact ⟨_, depthFirstReport_calls (depthFirstLoop_calls hcalls) w⟩

theorem depthFirstUntilStop_follows (depth : Nat) (path : Path) (w : Walk σ) :
    Follows noneLeft w (depthFirstUntilStop fs callback depth path w.data)
      (dirWalkDepthFirst fs callback depth path w) := by
  induction depth generalizing path w with
  | zero => exact .exhausted [] (List.append_nil _).symm (by simp)
  | succ depth ih =>
    rw [depthFirstUntilStop, dirWalkDepthFirst]
    split
    · exact .refl w (-1)
    · cases fs.dirOpen path with
      | none => exact .refl w (-1)
      | some names => exact depthFirstUntilStopLoop_follows ih (dirWalkDepthFirst_calls depth) w

end DepthFirst

/-! ## When a walk stops at once -/

/-- `dir_walk` makes no call after a `DirStop` exactly when nothing is left to report around the
entry that it is returned for, and `dir_walk_depth_first` exactly when that entry stands in the
directory where the walk started. -/
theorem stopsAtOnce_iff (fs : FileSystem) (callback : WalkDirCallback σ) (depth : Nat)
    (path : Path) (data : σ) :
    (StopsAtOnce (dirWalk fs callback depth path ⟨data, []⟩).1.calls ↔
      ∀ outer, dirWalkUntilStop fs callback depth path data = .stopped outer →
        (quietStatus fs outer).isSome) ∧
    (StopsAtOnce (dirWalkDepthFirst fs callback depth path ⟨data, []⟩).1.calls ↔
      ∀ outer, depthFirstUntilStop fs callback depth path data = .stopped outer → outer = []) := by
  constructor
  · exact (dirWalkUntilStop_follows depth path ⟨data, []⟩).stops_iff
  · refine (depthFirstUntilStop_follows depth path ⟨data, []⟩).stops_iff.trans ?_
    refine forall₂_congr fun outer _ => ?_
    rw [noneLeft]
    split <;> simp_all

/-- The answers of the callback alone. -/
theorem StopsAtOnce.of_opts {calls : List Call} {before after : List WalkDirOption}
    (h : StopsAtOnce calls) (hopts : calls.map Call.opt = before ++ .dirStop :: after) :
    after = [] := by
  obtain ⟨calls₁, rest, rfl, -, hrest⟩ := List.map_eq_append_iff.mp hopts
  obtain ⟨c, calls₂, rfl, hc, rfl⟩ := List.map_eq_cons_iff.mp hrest
  rw [h calls₁ c calls₂ rfl hc]
  rfl

/-- The directory `r` with a directory `d` and a file `g`; `d` holds the file `f`. -/
def smallTree : FileSystem where
  dirOpen path :=
    if path = [0x72] then some [[dot], [0x64], [0x67], [dot, dot]]
    else if path = [0x72, slash, 0x64] then some [[dot], [dot, dot], [0x66]]
    else none
  lstat path :=
    if path = [0x72, slash, 0x64] then some ⟨.directory, true, 4096, 0⟩
    else if path = [0x72, slash, 0x67] ∨ path = [0x72, slash, 0x64, slash, 0x66] then
      some ⟨.regular, false, 1, 0⟩
    else none

/-- A callback that stops at `f`. -/
def stopAtF : WalkDirCallback Unit := fun _ _ name _ =>
  (if name = [0x66] then .dirStop else .dirContinue, ())

theorem not_stopsAtOnce :
    (¬ ∀ (fs : FileSystem) (callback : WalkDirCallback Unit) (depth : Nat) (path : Path),
      StopsAtOnce (dirWalk fs callback depth path ⟨(), []⟩).1.calls) ∧
    ¬ ∀ (fs : FileSystem) (callback : WalkDirCallback Unit) (depth : Nat) (path : Path),
      StopsAtOnce (dirWalkDepthFirst fs callback depth path ⟨(), []⟩).1.calls := by
  constructor
  · intro h
    have hopts : (dirWalk smallTree stopAtF 2 [0x72] ⟨(), []⟩).1.calls.map Call.opt =
        [.dirContinue] ++ .dirStop :: [.dirContinue] := by decide +kernel
    exact absurd ((h smallTree stopAtF 2 [0x72]).of_opts hopts) (by simp)
  · intro h
    have hopts : (dirWalkDepthFirst smallTree stopAtF 2 [0x72] ⟨(), []⟩).1.calls.map Call.opt =
        [] ++ .dirStop :: [.dirContinue, .dirContinue] := by decide +kernel
    exact absurd ((h smallTree stopAtF 2 [0x72]).of_opts hopts) (by simp)

end Solidc.Filepath
