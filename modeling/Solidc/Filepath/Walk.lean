import Mathlib.Data.List.DropRight

/-! # Walking a directory tree

`dir_walk` and `dir_walk_depth_first` on a POSIX system. A path is the list of its bytes,
without the terminator. The file system does not change during a walk: opening a directory gives
the names that `readdir` delivers, in its order, and `lstat` finds what a path names.

* `filepathJoinBuf` — the path of an entry, in a buffer of fixed size;
* `mapDirentAttrs`, `populateFileAttrs` — the attributes of an entry;
* `dirWalk`, `dirWalkDepthFirst` — the walkers, with a log of the calls of the callback.

A walker calls itself for each directory; its first argument is how deep the stack lets it.
-/

namespace Solidc.Filepath

/-- A string without its terminator. -/
abbrev Path : Type := List UInt8

/-- `FILENAME_MAX`, the size of the buffer for the path of an entry. -/
def filenameMax : Nat := 4096

def slash : UInt8 := 0x2F
def dot : UInt8 := 0x2E

/-! ## Paths -/

/-- `snprintf(abspath, len, "%s/%s", path1, path2)`: what it would write. -/
def joined (path1 path2 : Path) : Path := path1 ++ slash :: path2

/-- `filepath_join_buf`: the string in the buffer, cut off where it is full, and the result. -/
def filepathJoinBuf (path1 path2 : Path) (len : Nat) : Path × Bool :=
  ((joined path1 path2).take (len - 1), decide ((joined path1 path2).length < len))

/-- The entries `.` and `..`. -/
def isDots (name : Path) : Bool := name == [dot] || name == [dot, dot]

/-! ## Attributes -/

inductive FileKind where
  | regular
  | directory
  | symlink
  | charDevice
  | blockDevice
  | fifo
  | socket
  | other
  deriving DecidableEq

/-- `struct stat`; `executable` is any of the three bits. -/
structure Stat where
  kind : FileKind
  executable : Bool
  size : Nat
  mtime : Int

structure FileAttributes where
  attrs : Nat
  size : Nat
  mtime : Int

def fattrNone : Nat := 0
def fattrFile : Nat := 1 <<< 0
def fattrDir : Nat := 1 <<< 1
def fattrSymlink : Nat := 1 <<< 2
def fattrChardev : Nat := 1 <<< 3
def fattrBlockdev : Nat := 1 <<< 4
def fattrFifo : Nat := 1 <<< 5
def fattrSocket : Nat := 1 <<< 6
def fattrHidden : Nat := 1 <<< 7
def fattrExecutable : Nat := 1 <<< 8

/-- The flags that say what kind of file it is. -/
def kindFlags (st : Stat) : Nat :=
  match st.kind with
  | .regular => if st.executable then fattrFile ||| fattrExecutable else fattrFile
  | .directory => fattrDir
  | .symlink => fattrSymlink
  | .charDevice => fattrChardev
  | .blockDevice => fattrBlockdev
  | .fifo => fattrFifo
  | .socket => fattrSocket
  | .other => fattrNone

/-- `fattr_is_dir`. -/
def FileAttributes.isDir (attr : FileAttributes) : Bool := attr.attrs &&& fattrDir != 0

/-- What the walkers use of the system. `dirOpen` is `none` when `dir_open` fails. -/
structure FileSystem where
  dirOpen : Path → Option (List Path)
  lstat : Path → Option Stat

/-- `map_dirent_attrs`. -/
def mapDirentAttrs (fs : FileSystem) (name path : Path) : Option FileAttributes :=
  (fs.lstat path).map fun st =>
    { attrs := (if name.headD 0 = dot then fattrHidden else fattrNone) ||| kindFlags st
      size := st.size
      mtime := st.mtime }

/-- What stands behind the last slash, or the whole path where that is nothing. -/
def baseName (path : Path) : Path :=
  if path.rtakeWhile (· ≠ slash) = [] then path else path.rtakeWhile (· ≠ slash)

/-- `populate_file_attrs`. -/
def populateFileAttrs (fs : FileSystem) (path : Path) : Option FileAttributes :=
  (fs.lstat path).map fun st =>
    { attrs := kindFlags st ||| if (baseName path).headD 0 = dot then fattrHidden else fattrNone
      size := if st.kind = .directory then 0 else st.size
      mtime := st.mtime }

/-! ## Callbacks -/

inductive WalkDirOption where
  | dirContinue
  | dirStop
  | dirSkip
  | dirError
  deriving DecidableEq

/-- A `WalkDirCallback`, which may change the data it is called with. -/
abbrev WalkDirCallback (σ : Type*) : Type _ :=
  FileAttributes → Path → Path → σ → WalkDirOption × σ

/-- One call of the callback. -/
structure Call where
  attr : FileAttributes
  path : Path
  name : Path
  opt : WalkDirOption

/-- The data of the callback, and its calls so far. -/
structure Walk (σ : Type*) where
  data : σ
  calls : List Call

variable {σ : Type*}

/-- The walker calls the callback. -/
def Walk.call (w : Walk σ) (callback : WalkDirCallback σ) (attr : FileAttributes)
    (path name : Path) : Walk σ :=
  ⟨(callback attr path name w.data).2,
    w.calls ++ [⟨attr, path, name, (callback attr path name w.data).1⟩]⟩

/-! ## `dir_walk` -/

/-- The attributes that `dir_walk` passes on, or `none` for an entry that it passes over. -/
def walkAttrs (fs : FileSystem) (name fullpath : Path) : Option FileAttributes :=
  match mapDirentAttrs fs name fullpath with
  | none => none
  | some attr => if attr.attrs = fattrNone then populateFileAttrs fs fullpath else some attr

/-- The loop of `dir_walk` over the names that `readdir` delivers. The status is `none` when a
nested call has run out of stack. -/
def dirWalkLoop (fs : FileSystem) (callback : WalkDirCallback σ)
    (walk : Path → Walk σ → Walk σ × Option Int) (path : Path) :
    List Path → Walk σ → Walk σ × Option Int
  | [], w => (w, some 0)
  | name :: names, w =>
    if isDots name then dirWalkLoop fs callback walk path names w
    else
      match filepathJoinBuf path name filenameMax with
      | (_, false) => (w, some (-1))
      | (fullpath, true) =>
        match walkAttrs fs name fullpath with
        -- `lstat` failed: the entry is passed over
        | none => dirWalkLoop fs callback walk path names w
        | some attr =>
          match (callback attr fullpath name w.data).1 with
          -- a stop ends the loop with status 0, after which the loop of the parent goes on
          | .dirStop => (w.call callback attr fullpath name, some 0)
          | .dirError => (w.call callback attr fullpath name, some (-1))
          | .dirSkip =>
            dirWalkLoop fs callback walk path names (w.call callback attr fullpath name)
          | .dirContinue =>
            if attr.isDir then
              match walk fullpath (w.call callback attr fullpath name) with
              | (w', none) => (w', none)
              | (w', some status) =>
                if status ≠ 0 then (w', some (-1))
                else dirWalkLoop fs callback walk path names w'
            else dirWalkLoop fs callback walk path names (w.call callback attr fullpath name)

/-- `dir_walk`. -/
def dirWalk (fs : FileSystem) (callback : WalkDirCallback σ) :
    Nat → Path → Walk σ → Walk σ × Option Int
  | 0, _, w => (w, none)
  | depth + 1, path, w =>
    if path = [] then (w, some (-1))
    else
      match fs.dirOpen path with
      | none => (w, some (-1))
      | some names => dirWalkLoop fs callback (dirWalk fs callback depth) path names w

/-! ## `dir_walk_depth_first` -/

/-- The attributes that `dir_walk_depth_first` passes on. The result of `populate_file_attrs` is
ignored. -/
def depthFirstAttrs (fs : FileSystem) (name fullpath : Path) : Option FileAttributes :=
  match mapDirentAttrs fs name fullpath with
  | none => none
  | some attr =>
    if attr.attrs = fattrNone then some ((populateFileAttrs fs fullpath).getD attr) else some attr

/-- What follows the nested call in the loop of `dir_walk_depth_first`. -/
def depthFirstReport (callback : WalkDirCallback σ) (attr : FileAttributes) (fullpath name : Path)
    (next : Walk σ → Walk σ × Option Int) (w : Walk σ) : Walk σ × Option Int :=
  match (callback attr fullpath name w.data).1 with
  | .dirStop => (w.call callback attr fullpath name, some 0)
  | .dirError => (w.call callback attr fullpath name, some (-1))
  | .dirContinue | .dirSkip => next (w.call callback attr fullpath name)

/-- The loop of `dir_walk_depth_first`. The result of `filepath_join_buf` is ignored. -/
def depthFirstLoop (fs : FileSystem) (callback : WalkDirCallback σ)
    (walk : Path → Walk σ → Walk σ × Option Int) (path : Path) :
    List Path → Walk σ → Walk σ × Option Int
  | [], w => (w, some 0)
  | name :: names, w =>
    if isDots name then depthFirstLoop fs callback walk path names w
    else
      -- a path too long for the buffer is cut off, and the walk goes on with what is left of it
      let fullpath := (filepathJoinBuf path name filenameMax).1
      match depthFirstAttrs fs name fullpath with
      | none => depthFirstLoop fs callback walk path names w
      | some attr =>
        if attr.isDir then
          match walk fullpath w with
          | (w', none) => (w', none)
          | (w', some status) =>
            if status ≠ 0 then (w', some (-1))
            else depthFirstReport callback attr fullpath name
              (depthFirstLoop fs callback walk path names) w'
        else depthFirstReport callback attr fullpath name
          (depthFirstLoop fs callback walk path names) w

/-- `dir_walk_depth_first`. -/
def dirWalkDepthFirst (fs : FileSystem) (callback : WalkDirCallback σ) :
    Nat → Path → Walk σ → Walk σ × Option Int
  | 0, _, w => (w, none)
  | depth + 1, path, w =>
    if path = [] then (w, some (-1))
    else
      match fs.dirOpen path with
      | none => (w, some (-1))
      | some names => depthFirstLoop fs callback (dirWalkDepthFirst fs callback depth) path names w

/-! ## The attributes of an entry -/

/-- Only a directory has the flag of one. -/
theorem isDir_iff (st : Stat) (hidden : Bool) (size : Nat) (mtime : Int) :
    FileAttributes.isDir
        ⟨(if hidden then fattrHidden else fattrNone) ||| kindFlags st, size, mtime⟩ =
      decide (st.kind = .directory) := by
  obtain ⟨kind, executable, _, _⟩ := st
  cases kind <;> cases executable <;> cases hidden <;>
    simp [FileAttributes.isDir, kindFlags, fattrNone, fattrFile, fattrDir, fattrSymlink,
      fattrChardev, fattrBlockdev, fattrFifo, fattrSocket, fattrHidden, fattrExecutable]

end Solidc.Filepath
