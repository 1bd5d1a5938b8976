import Solidc.Filepath.Stopping

/-! # What a walk visits

A directory tree is a `Listing`: the entries of a directory in the order of `readdir`, each
directory with its own. A path that does not fit into the buffer ends `dir_walk`, while
`dir_walk_depth_first` goes on with the part of it that fits.

* `Listing.preorder`, `Listing.postorder` — every entry once, with its full path;
* `Covers` — how far a walk has got in such an order;
* `walks_cover` — `dir_walk` visits the entries in the first order or fails, and
  `dir_walk_depth_first` in the second exactly when all paths fit.
-/

namespace Solidc.Filepath

variable {σ : Type*}

/-! ## Directory trees -/

/-- The entries of a directory, from the first to the last. -/
inductive Listing where
  | nil
  /-- `.` or `..`. -/
  | dots (name : Path) (rest : Listing)
  | file (name : Path) (st : Stat) (rest : Listing)
  | directory (name : Path) (st : Stat) (below rest : Listing)
  /-- A directory that cannot be opened. -/
  | closed (name : Path) (st : Stat) (rest : Listing)

namespace Listing

def names : Listing → List Path
  | nil => []
  | dots name rest | file name _ rest | directory name _ _ rest | closed name _ rest =>
    name :: rest.names

/-- How many directories are nested. -/
def height : Listing → Nat
  | nil => 0
  | dots _ rest | file _ _ rest => rest.height
  | directory _ _ below rest => max (below.height + 1) rest.height
  | closed _ _ rest => max 1 rest.height

/-- The full path and the name of every entry, a directory before the entries below it. -/
def preorder (path : Path) : Listing → List (Path × Path)
  | nil => []
  | dots _ rest => rest.preorder path
  | file name _ rest | closed name _ rest => (joined path name, name) :: rest.preorder path
  | directory name _ below rest =>
    (joined path name, name) :: (below.preorder (joined path name) ++ rest.preorder path)

/-- A directory after the entries below it. -/
def postorder (path : Path) : Listing → List (Path × Path)
  | nil => []
  | dots _ rest => rest.postorder path
  | file name _ rest | closed name _ rest => (joined path name, name) :: rest.postorder path
  | directory name _ below rest =>
    below.postorder (joined path name) ++ (joined path name, name) :: rest.postorder path

/-- The file system has these entries in the directory `path`, as far as a path can be passed to
it. -/
def At (fs : FileSystem) (path : Path) : Listing → Prop
  | nil => True
  | dots name rest => isDots name ∧ rest.At fs path
  | file name st rest =>
    ¬ isDots name ∧ st.kind ≠ .directory ∧
      ((joined path name).length < filenameMax → fs.lstat (joined path name) = some st) ∧
      rest.At fs path
  | directory name st below rest =>
    ¬ isDots name ∧ st.kind = .directory ∧
      ((joined path name).length < filenameMax →
        fs.lstat (joined path name) = some st ∧
          fs.dirOpen (joined path name) = some below.names) ∧
      below.At fs (joined path name) ∧ rest.At fs path
  | closed name st rest =>
    ¬ isDots name ∧ st.kind = .directory ∧
      ((joined path name).length < filenameMax →
        fs.lstat (joined path name) = some st ∧ fs.dirOpen (joined path name) = none) ∧
      rest.At fs path

/-- The path of every entry fits into the buffer. -/
def Fits (path : Path) (l : Listing) : Prop :=
  ∀ e ∈ l.preorder path, e.1.length < filenameMax

instance (path : Path) (l : Listing) : Decidable (l.Fits path) :=
  inferInstanceAs (Decidable (∀ e ∈ l.preorder path, e.1.length < filenameMax))

end Listing

/-- `root` is a directory with the entries `l`. -/
structure TreeAt (fs : FileSystem) (root : Path) (l : Listing) : Prop where
  root_ne : root ≠ []
  dirOpen : fs.dirOpen root = some l.names
  entries : l.At fs root

/-- Every directory can be opened. -/
def FileSystem.Openable (fs : FileSystem) : Prop :=
  ∀ path st, fs.lstat path = some st → st.kind = .directory → (fs.dirOpen path).isSome

/-- The callback never asks for more than to go on. -/
def Continues (callback : WalkDirCallback σ) : Prop :=
  ∀ attr path name d, (callback attr path name d).1 = .dirContinue

/-- The paths and names that the callback was called with. -/
def Walk.visited (w : Walk σ) : List (Path × Path) := w.calls.map fun c => (c.path, c.name)

/-- A walker that may call itself `depth` times visits `order`, each entry once, or returns -1;
at no time has it visited anything else. -/
def Visits (walk : Nat → Walk σ × Option Int) (enough : Nat) (order : List (Path × Path)) : Prop :=
  (∀ depth, (walk depth).1.visited <+: order) ∧
    ∀ depth, enough < depth →
      (walk depth).2 = some (-1) ∨ (walk depth).2 = some 0 ∧ (walk depth).1.visited = order

/-! ## Attributes -/

section Attrs

variable {fs : FileSystem} {name path : Path} {st : Stat}

/-- Falling back to `populate_file_attrs` makes no difference. -/
theorem isDir_populate {size : Nat} {mtime : Int} (path : Path) (st : Stat) :
    FileAttributes.isDir ⟨kindFlags st ||| if (baseName path).headD 0 = dot then fattrHidden
      else fattrNone, size, mtime⟩ = decide (st.kind = .directory) := by
  rw [Nat.or_comm]
  simpa using isDir_iff st (decide ((baseName path).headD 0 = dot)) size mtime

theorem mapDirentAttrs_some (name : Path) (h : fs.lstat path = some st) :
    ∃ attr, mapDirentAttrs fs name path = some attr ∧
      attr.isDir = decide (st.kind = .directory) := by
  refine ⟨_, by rw [mapDirentAttrs, h]; rfl, ?_⟩
  simpa using isDir_iff st (decide (name.headD 0 = dot)) st.size st.mtime

theorem populateFileAttrs_some (h : fs.lstat path = some st) :
    ∃ attr, populateFileAttrs fs path = some attr ∧
      attr.isDir = decide (st.kind = .directory) :=
  ⟨_, by rw [populateFileAttrs, h]; rfl, isDir_populate path st⟩

theorem walkAttrs_some (name : Path) (h : fs.lstat path = some st) :
    ∃ attr, walkAttrs fs name path = some attr ∧ attr.isDir = decide (st.kind = .directory) := by
  obtain ⟨attr, hattr, hdir⟩ := mapDirentAttrs_some name h
  rw [walkAttrs, hattr]
  by_cases hnone : attr.attrs = fattrNone
  · simpa only [if_pos hnone] using populateFileAttrs_some h
  · simpa only [if_neg hnone] using ⟨attr, rfl, hdir⟩

theorem depthFirstAttrs_some (name : Path) (h : fs.lstat path = some st) :
    ∃ attr, depthFirstAttrs fs name path = some attr ∧
      attr.isDir = decide (st.kind = .directory) := by
  obtain ⟨attr, hattr, hdir⟩ := mapDirentAttrs_some name h
  rw [depthFirstAttrs, hattr]
  by_cases hnone : attr.attrs = fattrNone
  · obtain ⟨attr', hattr', hdir'⟩ := populateFileAttrs_some h
    simp only [if_pos hnone, hattr', Option.getD_some]
    exact ⟨attr', rfl, hdir'⟩
  · simpa only [if_neg hnone] using ⟨attr, rfl, hdir⟩

theorem filepathJoinBuf_fits (h : (joined path name).length < filenameMax) :
    filepathJoinBuf path name filenameMax = (joined path name, true) := by
  rw [filepathJoinBuf, List.take_of_length_le (Nat.le_sub_one_of_lt h), decide_eq_true h]

theorem visit_tooLong (hdots : ¬ isDots name) (h : ¬ (joined path name).length < filenameMax) :
    visit fs path name = .tooLong := by
  rw [visit, if_neg hdots, filepathJoinBuf, decide_eq_false h]

theorem visit_entry (hdots : ¬ isDots name) (h : (joined path name).length < filenameMax)
    (hst : fs.lstat (joined path name) = some st) :
    ∃ attr, visit fs path name = .entry attr (joined path name) ∧
      attr.isDir = decide (st.kind = .directory) := by
  obtain ⟨attr, hattr, hdir⟩ := walkAttrs_some name hst
  refine ⟨attr, ?_, hdir⟩
  rw [visit, if_neg hdots, filepathJoinBuf_fits h]
  simp only [hattr]

theorem depthFirstVisit_entry (hdots : ¬ isDots name) (h : (joined path name).length < filenameMax)
    (hst : fs.lstat (joined path name) = some st) :
    ∃ attr, depthFirstVisit fs path name = some (attr, joined path name) ∧
      attr.isDir = decide (st.kind = .directory) := by
  obtain ⟨attr, hattr, hdir⟩ := depthFirstAttrs_some name hst
  refine ⟨attr, ?_, hdir⟩
  rw [depthFirstVisit, if_neg hdots, filepathJoinBuf_fits h]
  simp only [hattr, Option.map_some]

end Attrs

/-! ## How far a walk has got -/

/-- A walk from `w` has visited the first entries of `order`, and all of them if it returned 0. -/
structure Covers (order : List (Path × Path)) (enough : Prop) (w : Walk σ)
    (r : Walk σ × Option Int) : Prop where
  done : ∃ done, done <+: order ∧ r.1.visited = w.visited ++ done ∧ (r.2 = some 0 → done = order)
  status : r.2 = some 0 ∨ r.2 = some (-1) ∨ r.2 = none ∧ ¬ enough

section Covers

variable {order order₁ order₂ : List (Path × Path)} {enough enough' : Prop} {w : Walk σ}
  {r : Walk σ × Option Int} {next : Walk σ → Walk σ × Option Int}

theorem Covers.nil (enough : Prop) (w : Walk σ) : Covers [] enough w (w, some 0) :=
  ⟨⟨[], List.prefix_rfl, (List.append_nil _).symm, fun _ => rfl⟩, .inl rfl⟩

theorem Covers.fail (order : List (Path × Path)) (enough : Prop) (w : Walk σ) :
    Covers order enough w (w, some (-1)) :=
  ⟨⟨[], List.nil_prefix, (List.append_nil _).symm, nofun⟩, .inr (.inl rfl)⟩

theorem Covers.exhausted (order : List (Path × Path)) (h : ¬ enough) (w : Walk σ) :
    Covers order enough w (w, none) :=
  ⟨⟨[], List.nil_prefix, (List.append_nil _).symm, nofun⟩, .inr (.inr ⟨rfl, h⟩)⟩

theorem Covers.mono (h : Covers order enough w r) (himp : enough' → enough) :
    Covers order enough' w r :=
  ⟨h.done, h.status.imp_right (.imp_right (.imp_right (mt himp)))⟩

/-- One more entry in front. -/
theorem Covers.cons (callback : WalkDirCallback σ) (attr : FileAttributes) {path name : Path}
    (h : Covers order enough (w.call callback attr path name) r) :
    Covers ((path, name) :: order) enough w r := by
  obtain ⟨⟨done, hpre, hvisited, hall⟩, hstatus⟩ := h
  refine ⟨⟨(path, name) :: done, List.cons_prefix_cons.mpr ⟨rfl, hpre⟩, ?_, fun h => ?_⟩, hstatus⟩
  · rw [hvisited]
    simp [Walk.visited, Walk.call]
  · rw [hall h]

/-- A nested walk, and the rest of the loop around it. -/
theorem Covers.afterWalk (h : Covers order₁ enough w r)
    (hnext : ∀ w, Covers order₂ enough w (next w)) :
    Covers (order₁ ++ order₂) enough w (afterWalk r next) := by
  obtain ⟨⟨done, hpre, hvisited, hall⟩, hstatus⟩ := h
  obtain ⟨w', status⟩ := r
  rcases hstatus with hzero | hfail | ⟨hnone, henough⟩
  · cases hzero
    obtain ⟨⟨done', hpre', hvisited', hall'⟩, hstatus'⟩ := hnext w'
    refine ⟨⟨done ++ done', ?_, ?_, fun h => ?_⟩, hstatus'⟩
    · rw [hall rfl]
      exact List.prefix_append_right_inj _ |>.mpr hpre'
    · show (next w').1.visited = _
      rw [hvisited', hvisited, List.append_assoc]
    · rw [hall rfl, hall' h]
  · cases hfail
    exact ⟨⟨done, hpre.trans (List.prefix_append ..), hvisited, nofun⟩, .inr (.inl rfl)⟩
  · cases hnone
    exact ⟨⟨done, hpre.trans (List.prefix_append ..), hvisited, nofun⟩, .inr (.inr ⟨rfl, henough⟩)⟩

/-- A walker whose every call covers `order`. -/
theorem Visits.of_covers {walk : Nat → Walk σ × Option Int} {bound : Nat} {data : σ}
    (h : ∀ depth, Covers order (bound < depth) ⟨data, []⟩ (walk depth)) :
    Visits walk bound order := by
  constructor
  · intro depth
    obtain ⟨done, hpre, hvisited, -⟩ := (h depth).done
    rw [hvisited]
    exact hpre
  · intro depth hdepth
    obtain ⟨done, hpre, hvisited, hall⟩ := (h depth).done
    rcases (h depth).status with hzero | hfail | ⟨-, hshort⟩
    · exact .inr ⟨hzero, hvisited.trans (hall hzero)⟩
    · exact .inl hfail
    · exact absurd hdepth hshort

end Covers

/-! ## `dir_walk` -/

section DirWalk

variable {fs : FileSystem} {callback : WalkDirCallback σ} {root : Path} {l : Listing}

theorem reportEntry_continues {walk : Path → Walk σ → Walk σ × Option Int} {attr : FileAttributes}
    {fullpath name : Path} {next : Walk σ → Walk σ × Option Int} {w : Walk σ}
    (hcont : Continues callback) : reportEntry callback walk attr fullpath name next w =
      if attr.isDir then afterWalk (walk fullpath (w.call callback attr fullpath name)) next
      else next (w.call callback attr fullpath name) := by
  rw [reportEntry, hcont]

theorem dirWalkLoop_covers (hcont : Continues callback) (depth : Nat) (path : Path)
    (hpath : path ≠ []) (hl : l.At fs path) (w : Walk σ) :
    Covers (l.preorder path) (l.height ≤ depth) w
      (dirWalkLoop fs callback (dirWalk fs callback depth) path l.names w) := by
  -- by the kind of the first entry; a path too long for the buffer ends the walk
  induction l generalizing depth path w with
  | nil => exact .nil _ w
  | dots name rest ih =>
    rw [Listing.names, dirWalkLoop_cons, visit, if_pos hl.1]
    exact ih depth path hpath hl.2 w
  | file name st rest ih =>
    obtain ⟨hdots, hkind, hst, hrest⟩ := hl
    rw [Listing.names, dirWalkLoop_cons]
    by_cases hfit : (joined path name).length < filenameMax
    · obtain ⟨attr, hvisit, hdir⟩ := visit_entry hdots hfit (hst hfit)
      simp only [hvisit, reportEntry_continues hcont, hdir, hkind, decide_false, Bool.false_eq_true,
        if_false]
      exact (ih depth path hpath hrest _).cons callback attr
    · rw [visit_tooLong hdots hfit]
      exact .fail _ _ w
  | directory name st below rest ihBelow ih =>
    obtain ⟨hdots, hkind, hst, hbelow, hrest⟩ := hl
    rw [Listing.names, dirWalkLoop_cons]
    by_cases hfit : (joined path name).length < filenameMax
    · obtain ⟨attr, hvisit, hdir⟩ := visit_entry hdots hfit (hst hfit).1
      simp only [hvisit, reportEntry_continues hcont, hdir, hkind, decide_true, if_true]
      refine (Covers.afterWalk ?_ fun w =>
        (ih depth path hpath hrest w).mono fun h => ?_).cons callback attr
      · -- the directory is walked one level further down, where the fuel is one less
        cases depth with
        | zero => exact .exhausted _ (by simp [Listing.height]) _
        | succ depth =>
          rw [dirWalk, if_neg (by simp [joined]), (hst hfit).2]
          exact (ihBelow depth _ (by simp [joined]) hbelow _).mono fun h => by
            simp only [Listing.height] at h
            omega
      · simp only [Listing.height] at h
        omega
    · rw [visit_tooLong hdots hfit]
      exact .fail _ _ w
  | closed name st rest ih =>
    obtain ⟨hdots, hkind, hst, hrest⟩ := hl
    rw [Listing.names, dirWalkLoop_cons]
    by_cases hfit : (joined path name).length < filenameMax
    · obtain ⟨attr, hvisit, hdir⟩ := visit_entry hdots hfit (hst hfit).1
      simp only [hvisit, reportEntry_continues hcont, hdir, hkind, decide_true, if_true]
      refine Covers.cons callback attr ?_
      cases depth with
      | zero => exact .exhausted _ (by simp [Listing.height]) _
      | succ depth =>
        rw [dirWalk, if_neg (by simp [joined]), (hst hfit).2]
        exact .fail _ _ _
    · rw [visit_tooLong hdots hfit]
      exact .fail _ _ w

theorem dirWalk_covers (hcont : Continues callback) (h : TreeAt fs root l) (depth : Nat)
    (w : Walk σ) :
    Covers (l.preorder root) (l.height < depth) w (dirWalk fs callback depth root w) := by
  cases depth with
  | zero => exact .exhausted _ (Nat.not_lt_zero _) w
  | succ depth =>
    rw [dirWalk, if_neg h.root_ne, h.dirOpen]
    exact (dirWalkLoop_covers hcont depth root h.root_ne h.entries w).mono Nat.le_of_lt_succ

end DirWalk

/-! ## `dir_walk_depth_first` -/

section DepthFirst

variable {fs : FileSystem} {callback : WalkDirCallback σ} {root : Path} {l : Listing}

theorem depthFirstReport_continues {attr : FileAttributes} {fullpath name : Path}
    {next : Walk σ → Walk σ × Option Int} {w : Walk σ} (hcont : Continues callback) :
    depthFirstReport callback attr fullpath name next w =
      next (w.call callback attr fullpath name) := by
  rw [depthFirstReport, hcont]

theorem depthFirstLoop_covers (hcont : Continues callback) (depth : Nat) (path : Path)
    (hl : l.At fs path) (hfits : l.Fits path) (w : Walk σ) :
    Covers (l.postorder path) (l.height ≤ depth) w
      (depthFirstLoop fs callback (dirWalkDepthFirst fs callback depth) path l.names w) := by
  induction l generalizing depth path w with
  | nil => exact .nil _ w
  | dots name rest ih =>
    rw [Listing.names, depthFirstLoop_cons, depthFirstVisit, if_pos hl.1]
    exact ih depth path hl.2 hfits w
  | file name st rest ih =>
    obtain ⟨hdots, hkind, hst, hrest⟩ := hl
    obtain ⟨hfit, hfits⟩ := List.forall_mem_cons.mp hfits
    obtain ⟨attr, hvisit, hdir⟩ := depthFirstVisit_entry hdots hfit (hst hfit)
    rw [Listing.names, depthFirstLoop_cons]
    simp only [hvisit, hdir, hkind, decide_false, Bool.false_eq_true, if_false, afterWalk, ne_eq,
      not_true_eq_false, depthFirstReport_continues hcont]
    exact (ih depth path hrest hfits _).cons callback attr
  | directory name st below rest ihBelow ih =>
    obtain ⟨hdots, hkind, hst, hbelow, hrest⟩ := hl
    obtain ⟨hfit, hfits⟩ := List.forall_mem_cons.mp hfits
    obtain ⟨hfitsBelow, hfits⟩ := List.forall_mem_append.mp hfits
    obtain ⟨attr, hvisit, hdir⟩ := depthFirstVisit_entry hdots hfit (hst hfit).1
    rw [Listing.names, depthFirstLoop_cons]
    simp only [hvisit, hdir, hkind, decide_true, if_true]
    -- what is below the directory comes first, then the directory itself, then the rest
    refine Covers.afterWalk ?_ fun w => ?_
    · cases depth with
      | zero => exact .exhausted _ (by simp [Listing.height]) _
      | succ depth =>
        rw [dirWalkDepthFirst, if_neg (by simp [joined]), (hst hfit).2]
        exact (ihBelow depth _ hbelow hfitsBelow w).mono fun h => by
          simp only [Listing.height] at h
          omega
    · rw [depthFirstReport_continues hcont]
      refine ((ih depth path hrest hfits _).mono fun h => ?_).cons callback attr
      simp only [Listing.height] at h
      omega
  | closed name st rest ih =>
    obtain ⟨hdots, hkind, hst, hrest⟩ := hl
    obtain ⟨hfit, hfits⟩ := List.forall_mem_cons.mp hfits
    obtain ⟨attr, hvisit, hdir⟩ := depthFirstVisit_entry hdots hfit (hst hfit).1
    rw [Listing.names, depthFirstLoop_cons]
    simp only [hvisit, hdir, hkind, decide_true, if_true]
    cases depth with
    | zero => exact .exhausted _ (by simp [Listing.height]) _
    | succ depth =>
      rw [dirWalkDepthFirst, if_neg (by simp [joined]), (hst hfit).2]
      exact .fail _ _ w

theorem dirWalkDepthFirst_covers (hcont : Continues callback) (h : TreeAt fs root l)
    (hfits : l.Fits root) (depth : Nat) (w : Walk σ) :
    Covers (l.postorder root) (l.height < depth) w
      (dirWalkDepthFirst fs callback depth root w) := by
  cases depth with
  | zero => exact .exhausted _ (Nat.not_lt_zero _) w
  | succ depth =>
    rw [dirWalkDepthFirst, if_neg h.root_ne, h.dirOpen]
    exact (depthFirstLoop_covers hcont depth root h.entries hfits w).mono Nat.le_of_lt_succ

/-! ## A path that does not fit -/

/-- What was visited fits into the buffer. -/
def Walk.Short (w : Walk σ) : Prop := ∀ e ∈ w.visited, e.1.length < filenameMax

theorem length_filepathJoinBuf (path name : Path) :
    (filepathJoinBuf path name filenameMax).1.length < filenameMax := by
  rw [filepathJoinBuf, List.length_take]
  exact Nat.lt_of_le_of_lt (Nat.min_le_left ..) (by decide)

theorem Walk.Short.call {w : Walk σ} {attr : FileAttributes} {path name : Path} (h : w.Short)
    (hpath : path.length < filenameMax) : (w.call callback attr path name).Short := by
  intro e he
  simp only [Walk.visited, Walk.call, List.map_append, List.mem_append] at he
  rcases he with he | he
  · exact h e he
  · rw [List.mem_singleton.mp he]
    exact hpath

theorem afterWalk_short {r : Walk σ × Option Int} {next : Walk σ → Walk σ × Option Int}
    (h : r.1.Short) (hnext : ∀ w, w.Short → (next w).1.Short) : (afterWalk r next).1.Short := by
  obtain ⟨w, _ | status⟩ := r
  · exact h
  · rw [afterWalk]
    split
    · exact h
    · exact hnext w h

/-- `dir_walk_depth_first` never reports a path longer than the buffer, so that a longer one is
cut off. -/
theorem depthFirstLoop_short {walk : Path → Walk σ → Walk σ × Option Int}
    (hcont : Continues callback) (hwalk : ∀ p w, w.Short → (walk p w).1.Short) (path : Path)
    (names : List Path) (w : Walk σ) (hw : w.Short) :
    (depthFirstLoop fs callback walk path names w).1.Short := by
  induction names generalizing w with
  | nil => exact hw
  | cons name names ih =>
    rw [depthFirstLoop_cons]
    cases hvisit : depthFirstVisit fs path name with
    | none => exact ih w hw
    | some entry =>
      have hlen : entry.2.length < filenameMax := by
        rw [depthFirstVisit] at hvisit
        split at hvisit
        · cases hvisit
        · obtain ⟨attr, -, rfl⟩ := Option.map_eq_some_iff.mp hvisit
          exact length_filepathJoinBuf path name
      refine afterWalk_short ?_ fun w hw => ?_
      · split
        · exact hwalk _ w hw
        · exact hw
      · rw [depthFirstReport_continues hcont]
        exact ih _ (hw.call hlen)

theorem dirWalkDepthFirst_short (hcont : Continues callback) (depth : Nat) (path : Path)
    (w : Walk σ) (hw : w.Short) : (dirWalkDepthFirst fs callback depth path w).1.Short := by
  induction depth generalizing path w with
  | zero => exact hw
  | succ depth ih =>
    rw [dirWalkDepthFirst]
    split
    · exact hw
    · cases fs.dirOpen path with
      | none => exact hw
      | some names => exact depthFirstLoop_short hcont ih path names w hw

/-- What is reported as a directory can be opened. -/
theorem depthFirstVisit_openable {path name fullpath : Path} {attr : FileAttributes}
    (hopen : fs.Openable) (h : depthFirstVisit fs path name = some (attr, fullpath))
    (hdir : attr.isDir) : fullpath ≠ [] ∧ (fs.dirOpen fullpath).isSome := by
  rw [depthFirstVisit] at h
  split at h
  · cases h
  · obtain ⟨attr', hattr, heq⟩ := Option.map_eq_some_iff.mp h
    cases heq
    refine ⟨by simp [filepathJoinBuf, joined, filenameMax], ?_⟩
    cases hst : fs.lstat (filepathJoinBuf path name filenameMax).1 with
    | none => simp [depthFirstAttrs, mapDirentAttrs, hst] at hattr
    | some st =>
      obtain ⟨attr', hattr', hkind⟩ := depthFirstAttrs_some name hst
      rw [hattr] at hattr'
      cases hattr'
      exact hopen _ st hst (of_decide_eq_true (hkind ▸ hdir))

theorem afterWalk_zero {r : Walk σ × Option Int} {next : Walk σ → Walk σ × Option Int}
    (h : ∀ s, r.2 = some s → s = 0) (hnext : ∀ w s, (next w).2 = some s → s = 0) :
    ∀ s, (afterWalk r next).2 = some s → s = 0 := by
  obtain ⟨w, _ | status⟩ := r
  · exact nofun
  · have hzero : status = 0 := h status rfl
    subst hzero
    exact hnext w

/-- A failure needs a directory that cannot be opened. -/
theorem depthFirstLoop_zero {walk : Path → Walk σ → Walk σ × Option Int}
    (hcont : Continues callback) (hopen : fs.Openable)
    (hwalk : ∀ p w, p ≠ [] → (fs.dirOpen p).isSome → ∀ s, (walk p w).2 = some s → s = 0)
    (path : Path) (names : List Path) (w : Walk σ) :
    ∀ s, (depthFirstLoop fs callback walk path names w).2 = some s → s = 0 := by
  induction names generalizing w with
  | nil =>
    intro s hs
    cases hs
    rfl
  | cons name names ih =>
    rw [depthFirstLoop_cons]
    cases hvisit : depthFirstVisit fs path name with
    | none => exact ih w
    | some entry =>
      refine afterWalk_zero ?_ fun w => ?_
      · split
        · next hdir =>
          obtain ⟨hne, hsome⟩ := depthFirstVisit_openable hopen hvisit hdir
          exact hwalk _ w hne hsome
        · intro s hs
          cases hs
          rfl
      · rw [depthFirstReport_continues hcont]
        exact ih _

theorem dirWalkDepthFirst_zero (hcont : Continues callback) (hopen : fs.Openable) (depth : Nat)
    (path : Path) (w : Walk σ) (hpath : path ≠ []) (hdir : (fs.dirOpen path).isSome) :
    ∀ s, (dirWalkDepthFirst fs callback depth path w).2 = some s → s = 0 := by
  induction depth generalizing path w with
  | zero => exact nofun
  | succ depth ih =>
    obtain ⟨names, hnames⟩ := Option.isSome_iff_exists.mp hdir
    rw [dirWalkDepthFirst, if_neg hpath, hnames]
    exact depthFirstLoop_zero hcont hopen ih path names w

theorem mem_postorder (path : Path) (e : Path × Path) :
    e ∈ l.postorder path ↔ e ∈ l.preorder path := by
  induction l generalizing path with
  | nil => rfl
  | dots name rest ih => exact ih path
  | file name st rest ih => simp [Listing.postorder, Listing.preorder, ih]
  | directory name st below rest ihBelow ih =>
    simp [Listing.postorder, Listing.preorder, ih, ihBelow, or_left_comm]
  | closed name st rest ih => simp [Listing.postorder, Listing.preorder, ih]

end DepthFirst

/-! ## Both walks -/

/-- With a callback that always goes on, `dir_walk` visits every entry, a directory before what is
below it, or fails. `dir_walk_depth_first` does so in the other order if every path fits into its
buffer, and, where every directory can be opened, only then. -/
theorem walks_cover {fs : FileSystem} {callback : WalkDirCallback σ} {root : Path} {l : Listing}
    (h : TreeAt fs root l) (hcont : Continues callback) (data : σ) :
    Visits (fun depth => dirWalk fs callback depth root ⟨data, []⟩) l.height (l.preorder root) ∧
    (l.Fits root → Visits (fun depth => dirWalkDepthFirst fs callback depth root ⟨data, []⟩)
      l.height (l.postorder root)) ∧
    (fs.Openable → Visits (fun depth => dirWalkDepthFirst fs callback depth root ⟨data, []⟩)
      l.height (l.postorder root) → l.Fits root) := by
  refine ⟨.of_covers fun depth => dirWalk_covers hcont h depth _,
    fun hfits => .of_covers fun depth => dirWalkDepthFirst_covers hcont h hfits depth _,
    fun hopen hvisits e he => ?_⟩
  rcases hvisits.2 (l.height + 1) (Nat.lt_succ_self _) with hfail | ⟨-, hall⟩
  · have hzero := dirWalkDepthFirst_zero hcont hopen (l.height + 1) root ⟨data, []⟩ h.root_ne
      (by rw [h.dirOpen]; rfl) _ hfail
    exact absurd hzero (by decide)
  · have hshort : (dirWalkDepthFirst fs callback (l.height + 1) root ⟨data, []⟩).1.Short :=
      dirWalkDepthFirst_short hcont (l.height + 1) root ⟨data, []⟩
        (by simp [Walk.Short, Walk.visited])
    exact hshort e (hall ▸ (mem_postorder root e).mpr he)

/-- The entries of `smallTree`. -/
def smallListing : Listing :=
  .dots [dot] <|
  .directory [0x64] ⟨.directory, true, 4096, 0⟩
    (.dots [dot] <| .dots [dot, dot] <| .file [0x66] ⟨.regular, false, 1, 0⟩ .nil) <|
  .file [0x67] ⟨.regular, false, 1, 0⟩ <|
  .dots [dot, dot] .nil

/-- A callback that goes on. -/
def goOn : WalkDirCallback Unit := fun _ _ _ d => (.dirContinue, d)

theorem walks_cover_smallTree :
    Visits (fun depth => dirWalk smallTree goOn depth [0x72] ⟨(), []⟩) 1
      (smallListing.preorder [0x72]) ∧
    Visits (fun depth => dirWalkDepthFirst smallTree goOn depth [0x72] ⟨(), []⟩) 1
      (smallListing.postorder [0x72]) := by
  have htree : TreeAt smallTree [0x72] smallListing :=
    ⟨by decide, by decide,
      by decide, by decide, rfl, fun _ => ⟨rfl, rfl⟩, ⟨by decide, by decide, by decide, by decide,
        fun _ => rfl, trivial⟩, by decide, by decide, fun _ => rfl, by decide, trivial⟩
  have hcont : Continues goOn := fun _ _ _ _ => rfl
  have hcover := walks_cover htree hcont ()
  exact ⟨hcover.1, hcover.2.1 (by decide)⟩

/-- A directory with the files `x` and `xy`. -/
def twoFiles (root : Path) : FileSystem where
  dirOpen path := if path = root then some [[0x78], [0x78, 0x79]] else none
  lstat path := if path = joined root [0x78] then some ⟨.regular, false, 1, 0⟩ else none

def twoFilesListing : Listing :=
  .file [0x78] ⟨.regular, false, 1, 0⟩ (.file [0x78, 0x79] ⟨.regular, false, 1, 0⟩ .nil)

/-- Under a path of 4093 bytes that of `xy` does not fit. -/
theorem not_visits_twoFiles {root : Path} (hroot : root.length = 4093) :
    TreeAt (twoFiles root) root twoFilesListing ∧ (twoFiles root).Openable ∧
    ¬ Visits (fun depth => dirWalkDepthFirst (twoFiles root) goOn depth root ⟨(), []⟩)
      twoFilesListing.height (twoFilesListing.postorder root) := by
  have hcont : Continues goOn := fun _ _ _ _ => rfl
  have hlong : ¬ (joined root [0x78, 0x79]).length < filenameMax := by
    rw [joined, List.length_append, hroot]
    decide
  have htree : TreeAt (twoFiles root) root twoFilesListing := by
    constructor
    · rintro rfl
      exact absurd hroot (by decide)
    · exact if_pos rfl
    · exact ⟨by decide, by decide, fun _ => if_pos rfl, by decide, by decide,
        fun hfit => absurd hfit hlong, trivial⟩
  have hopen : (twoFiles root).Openable := by
    intro path st hst hkind
    simp only [twoFiles] at hst
    split at hst
    · cases hst
      exact absurd hkind (by decide)
    · exact absurd hst nofun
  refine ⟨htree, hopen, fun hvisits => ?_⟩
  rcases hvisits.2 1 (by decide) with hfail | ⟨-, hall⟩
  · have hzero := dirWalkDepthFirst_zero hcont hopen 1 root ⟨(), []⟩ htree.root_ne
      (by rw [htree.dirOpen]; rfl) _ hfail
    exact absurd hzero (by decide)
  · -- the path of `xy` is too long to be reported
    have hshort : (dirWalkDepthFirst (twoFiles root) goOn 1 root ⟨(), []⟩).1.Short :=
      dirWalkDepthFirst_short hcont 1 root ⟨(), []⟩ (by simp [Walk.Short, Walk.visited])
    have hmem : (joined root [0x78, 0x79], [0x78, 0x79]) ∈ twoFilesListing.postorder root :=
      List.mem_cons_of_mem _ List.mem_cons_self
    exact hlong (hshort _ (hall ▸ hmem))

theorem not_walks_cover : ¬ ∀ (fs : FileSystem) (callback : WalkDirCallback Unit) (root : Path)
    (l : Listing), TreeAt fs root l → fs.Openable → Continues callback →
      Visits (fun depth => dirWalk fs callback depth root ⟨(), []⟩) l.height (l.preorder root) ∧
      Visits (fun depth => dirWalkDepthFirst fs callback depth root ⟨(), []⟩) l.height
        (l.postorder root) := by
  intro h
  let root : Path := (List.replicate 2046 [0x61, slash]).flatten ++ [0x61]
  have hroot : root.length = 4093 := by
    rw [List.length_append, List.length_flatten, List.map_replicate, List.sum_replicate_nat]
    rfl
  obtain ⟨htree, hopen, hnot⟩ := not_visits_twoFiles hroot
  exact hnot (h (twoFiles root) goOn root twoFilesListing htree hopen fun _ _ _ _ => rfl).2

end Solidc.Filepath
