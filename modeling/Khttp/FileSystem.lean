import Khttp.Bytes
import Khttp.Lib.PathTree

/-!
# The file system under the server

The calls of the C library that read the file system, as functions of the tree:
`realpath`, `stat`, `fopen` for reading and `opendir` with `readdir`. Limits on the
length of a path are left out; a path that exceeds one is not found.
-/

namespace Khttp

open Lib

/-- The symbols of a path text. -/
def pathSyntax : PathSyntax UInt8 := ⟨byte '/', byte '.', 0⟩

/-- A canonical absolute path. -/
abbrev Place := CanonPath pathSyntax

/-- The file system at the time of a call. -/
structure FileSystem where
  /-- The tree, with the working directory of the server. -/
  tree : FileTree pathSyntax
  /-- Whether opening for reading succeeds at a place. -/
  openable : Place → Bool
  /-- The bytes that a stream opened at a place delivers. -/
  content : Place → Bytes
  /-- The text that `ctime_r` makes of the time of the last change. -/
  mtime : Place → Bytes

namespace FileSystem

/-- How many symbolic links a path may lead through. -/
def maxSymlinks : ℕ := 40

/-- The place that a path leads to, when it leads to one. -/
def find (fs : FileSystem) (path : Bytes) : Option Place :=
  fs.tree.lookup maxSymlinks (cstr path)

/-- `realpath`. -/
def realpath (fs : FileSystem) (path : Bytes) : Option Bytes := (fs.find path).map render

/-- `stat`, as far as the type of the file. -/
def stat (fs : FileSystem) (path : Bytes) : Option (FileNode UInt8) :=
  (fs.find path).bind fs.tree.node

/-- `fopen` for reading: the place that the stream reads. -/
def fopen (fs : FileSystem) (path : Bytes) : Option Place := (fs.find path).filter fs.openable

/-- `opendir`, with the names that `readdir` then gives. -/
def opendir (fs : FileSystem) (path : Bytes) : Option (List Bytes) :=
  (fs.fopen path).bind fun p =>
    match fs.tree.node p with
    | some (.directory entries) => some entries
    | _ => none

end FileSystem

/-- The spelling of a canonical path has no zero byte. -/
theorem zero_notMem_render (p : Place) : 0 ∉ render p := by
  have hsep : (0 : UInt8) ≠ pathSyntax.sep := by decide
  cases p with
  | nil => simpa [render] using hsep
  | cons n p =>
    intro hmem
    obtain ⟨name, _, hname⟩ := List.mem_flatMap.mp hmem
    rcases List.mem_cons.mp hname with heq | hin
    · exact hsep heq
    · exact name.isName.2.2.1 hin

/-- The spelling of a canonical path is a C string. -/
@[simp] theorem cstr_render (p : Place) : cstr (render p) = render p :=
  cstr_of_zero_notMem (zero_notMem_render p)

namespace FileSystem

variable {fs : FileSystem} {path : Bytes} {p : Place}

/-- What a path leads to is a place of the tree. -/
theorem isPlace_of_find (h : fs.find path = some p) : fs.tree.IsPlace p :=
  FileTree.isPlace_of_lookup h

/-- A place is found by its own text. -/
theorem find_render (h : fs.tree.IsPlace p) : fs.find (render p) = some p := by
  unfold find
  rw [cstr_render]
  exact FileTree.lookup_render h maxSymlinks

/-- A directory that can be opened is a place with these entries. -/
theorem opendir_eq_some {entries : List Bytes} :
    fs.opendir path = some entries ↔
      ∃ p, fs.find path = some p ∧ fs.openable p = true ∧
        fs.tree.node p = some (.directory entries) := by
  unfold opendir fopen
  constructor
  · intro h
    obtain ⟨p, hp, hentries⟩ := Option.bind_eq_some_iff.mp h
    obtain ⟨hfind, hopen⟩ := Option.filter_eq_some_iff.mp hp
    refine ⟨p, hfind, hopen, ?_⟩
    split at hentries
    · next hnode => rw [hnode, Option.some.inj hentries]
    · simp at hentries
  · rintro ⟨p, hfind, hopen, hnode⟩
    apply Option.bind_eq_some_iff.mpr
    refine ⟨p, Option.filter_eq_some_iff.mpr ⟨hfind, hopen⟩, ?_⟩
    rw [hnode]

end FileSystem

/-- A file system with nothing but the root. -/
def rootFileSystem : FileSystem where
  tree := ⟨fun p => if p = [] then some (.directory []) else none, fun _ => true, [],
    .root (by decide)⟩
  openable := fun _ => true
  content := fun _ => []
  mtime := fun _ => []

end Khttp
