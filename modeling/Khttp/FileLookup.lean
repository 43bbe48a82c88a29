import Khttp.Containment

/-!
# What the lookup of a file results in

`server_determine_file` fills its result on six paths. A FIFO, a socket or a device fills nothing
in, the index file of a directory may be a directory itself, and a directory that cannot be read is
taken for one without an index file.
-/

namespace Khttp

open Lib

/-- What a result of `server_determine_file` may be. -/
inductive LookupKind where
  | error
  | listing
  | file
  deriving DecidableEq, Repr

/-- An entry of a directory has the name of a configured index file, ignoring case. -/
def IndexPresent (hconfig : ConfigHost) (entries : List Bytes) : Prop :=
  ∃ entry ∈ entries, hconfig.indexFiles.any (strcaseeq entry) = true

/-- The path names something that is not a directory: a file, or an entry of a directory that is a
link to nowhere. -/
def NamesFile (fs : FileSystem) (path : Bytes) : Prop :=
  (∃ node, fs.stat path = some node ∧ ∀ entries, node ≠ .directory entries) ∨
    (fs.stat path = none ∧ ∃ dir entries entry, fs.stat dir = some (.directory entries) ∧
      entry ∈ entries ∧ path = entryPath dir entry)

/-- The result is of a kind, with all that a result of that kind has. -/
def ServerFileResult.Is (fs : FileSystem) (hconfig : ConfigHost) (result : ServerFileResult) :
    LookupKind → Prop
  | .error => result.error = true ∧ result.errorCode ≠ 0 ∧ result.errorText ≠ none
  | .listing => result.error = false ∧ result.dir = true ∧ hconfig.dirListings = true ∧
      ∃ path entries, result.path = some path ∧ fs.stat path = some (.directory entries) ∧
        ¬IndexPresent hconfig entries
  | .file => result.error = false ∧ result.dir = false ∧
      ∃ path, result.path = some path ∧ NamesFile fs path

/-- The result is of exactly one kind, and without an error it has a path for `strdup` and
`fopen`. -/
structure LookupSound (fs : FileSystem) (hconfig : ConfigHost) (result : ServerFileResult) :
    Prop where
  /-- The kind of the result. -/
  kind : ∃! kind, result.Is fs hconfig kind
  /-- The path of the result. -/
  path : result.error = false → result.path ≠ none

/-- What stands at the place of a request leads to a result of one of the kinds. -/
def NodeFits (fs : FileSystem) (hconfig : ConfigHost) (p : Place) :
    Option (FileNode UInt8) → Prop
  | none | some .regular => True
  | some .special | some (.symlink _) => False
  | some (.directory entries) =>
    if fs.openable p then
      ∀ entry, directoryIndexEntry hconfig entries = some entry →
        ∀ inner, fs.stat (entryPath (render p) entry) ≠ some (.directory inner)
    else hconfig.dirListings = true → ¬IndexPresent hconfig entries

/-- Wherever the path of a request leads to an accepted place, what stands there fits. -/
def LookupFits (fs : FileSystem) (hconfig : ConfigHost) (serveDir requestedPath : Bytes) : Prop :=
  ∀ p, fs.find requestedPath = some p →
    strneq serveDir (render p) (strlen serveDir) = true → NodeFits fs hconfig p (fs.tree.node p)

variable {fs : FileSystem} {hconfig : ConfigHost} {result : ServerFileResult}

/-- The kind of a result is told by its flags. -/
theorem kind_eq {kind : LookupKind} (hkind : result.Is fs hconfig kind) :
    kind = if result.error then .error else if result.dir then .listing else .file := by
  cases kind with
  | error => simp [hkind.1]
  | listing => simp [hkind.1, hkind.2.1]
  | file => simp [hkind.1, hkind.2.1]

/-- A result of a kind is sound. -/
theorem lookupSound_of_is (kind : LookupKind) (hkind : result.Is fs hconfig kind) :
    LookupSound fs hconfig result := by
  have honly : ∀ other, result.Is fs hconfig other → other = kind := fun other hother =>
    (kind_eq hother).trans (kind_eq hkind).symm
  refine ⟨⟨kind, hkind, honly⟩, fun herror => ?_⟩
  cases kind with
  | error => simp [ServerFileResult.Is, herror] at hkind
  | listing =>
    obtain ⟨_, _, _, path, _, hpath, _⟩ := hkind
    simp [hpath]
  | file =>
    obtain ⟨_, _, path, hpath, _⟩ := hkind
    simp [hpath]

/-- A refusal is an error with a code and a text. -/
theorem lookupSound_seterror {code : UInt16} (message : Bytes) (hcode : code ≠ 0) :
    LookupSound fs hconfig (serverFileResultSeterror serverFileResultNew code message) :=
  lookupSound_of_is .error ⟨rfl, hcode, by simp [serverFileResultSeterror]⟩

/-- A result that was not filled in is not sound. -/
theorem not_lookupSound_new : ¬LookupSound fs hconfig serverFileResultNew := fun h =>
  h.path rfl rfl

/-- Without a first index file none is present. -/
theorem not_indexPresent_iff {entries : List Bytes} :
    ¬IndexPresent hconfig entries ↔ directoryIndexEntry hconfig entries = none := by
  rw [directoryIndexEntry, List.find?_eq_none, IndexPresent]
  push Not
  rfl

/-- The index file of a directory makes a sound result unless it is a directory itself. -/
theorem lookupSound_index_iff {p : Place} {entries : List Bytes} {entry : Bytes}
    (hp : fs.tree.IsPlace p) (hnode : fs.tree.node p = some (.directory entries))
    (hentry : directoryIndexEntry hconfig entries = some entry) :
    LookupSound fs hconfig { serverFileResultNew with path := some (entryPath (render p) entry) } ↔
      ∀ inner, fs.stat (entryPath (render p) entry) ≠ some (.directory inner) := by
  constructor
  · rintro h inner hstat
    obtain ⟨kind, hkind, _⟩ := h.kind
    obtain rfl : kind = .file := kind_eq hkind
    obtain ⟨_, _, path, hpath, hnames⟩ := hkind
    obtain rfl := Option.some.inj hpath
    rcases hnames with ⟨node, hnode, hfile⟩ | ⟨hnone, _⟩
    · exact hfile inner (Option.some.inj (hnode.symm.trans hstat))
    · simp [hnone] at hstat
  · intro hfile
    apply lookupSound_of_is .file
    refine ⟨rfl, rfl, _, rfl, ?_⟩
    cases hstat : fs.stat (entryPath (render p) entry) with
    | none =>
      refine Or.inr ⟨hstat, render p, entries, entry, ?_, List.mem_of_find?_eq_some hentry, rfl⟩
      simp [FileSystem.stat, FileSystem.find_render hp, hnode]
    | some node =>
      refine Or.inl ⟨node, hstat, ?_⟩
      rintro inner rfl
      exact hfile inner hstat

/-- A directory that is listed makes a sound result unless an index file is present. -/
theorem lookupSound_listing_iff {p : Place} {entries : List Bytes}
    (hp : fs.tree.IsPlace p) (hnode : fs.tree.node p = some (.directory entries))
    (hlistings : hconfig.dirListings = true) :
    LookupSound fs hconfig { serverFileResultNew with dir := true, path := some (render p) } ↔
      ¬IndexPresent hconfig entries := by
  have hstat : fs.stat (render p) = some (.directory entries) := by
    simp [FileSystem.stat, FileSystem.find_render hp, hnode]
  constructor
  · intro h
    obtain ⟨kind, hkind, _⟩ := h.kind
    obtain rfl : kind = .listing := kind_eq hkind
    obtain ⟨_, _, _, path, others, hpath, hothers, habsent⟩ := hkind
    obtain rfl := Option.some.inj hpath
    obtain rfl : entries = others := by simpa [hstat] using hothers
    exact habsent
  · intro habsent
    exact lookupSound_of_is .listing ⟨rfl, rfl, hlistings, _, _, rfl, hstat, habsent⟩

/-- The result for a directory. -/
theorem lookupSound_directory_iff {p : Place} {entries : List Bytes} (hp : fs.tree.IsPlace p)
    (hnode : fs.tree.node p = some (.directory entries)) :
    LookupSound fs hconfig (serverDetermineDirectory fs hconfig (render p)) ↔
      NodeFits fs hconfig p (some (.directory entries)) := by
  have hindex : serverFindDirectoryIndex fs hconfig (render p) = _ :=
    serverFindDirectoryIndex_render hp hnode
  -- without an index file the directory is listed or refused
  have hnone (h : serverFindDirectoryIndex fs hconfig (render p) = none) :
      LookupSound fs hconfig (serverDetermineDirectory fs hconfig (render p)) ↔
        (hconfig.dirListings = true → ¬IndexPresent hconfig entries) := by
    unfold serverDetermineDirectory
    rw [h]
    by_cases hlistings : hconfig.dirListings = true
    · simp only [hlistings, if_true, true_implies]
      exact lookupSound_listing_iff hp hnode hlistings
    · simp only [hlistings, Bool.false_eq_true, if_false, false_implies, iff_true]
      exact lookupSound_seterror _ (by decide)
  by_cases hopen : fs.openable p = true
  · simp only [NodeFits, if_pos hopen] at hindex ⊢
    cases hentry : directoryIndexEntry hconfig entries with
    | none =>
      rw [hentry] at hindex
      rw [hnone hindex]
      have habsent := not_indexPresent_iff.mpr hentry
      simp [habsent]
    | some entry =>
      rw [hentry] at hindex
      have hresult : serverDetermineDirectory fs hconfig (render p) =
          { serverFileResultNew with path := some (entryPath (render p) entry) } := by
        unfold serverDetermineDirectory
        rw [hindex]
        rfl
      rw [hresult, lookupSound_index_iff hp hnode hentry]
      simp
  · simp only [NodeFits, if_neg hopen] at hindex ⊢
    exact hnone hindex

/-- The result is an error, a listing or a file exactly where what stands at the place fits. -/
theorem lookupSound_iff (fs : FileSystem) (hconfig : ConfigHost) (serveDir requestedPath : Bytes) :
    LookupSound fs hconfig (serverDetermineFile fs hconfig serveDir requestedPath) ↔
      LookupFits fs hconfig serveDir requestedPath := by
  have hnotFound : LookupSound fs hconfig serverFileNotFound :=
    lookupSound_seterror _ (by decide)
  unfold serverDetermineFile FileSystem.realpath LookupFits
  cases hfind : fs.find requestedPath with
  | none => simpa using hnotFound
  | some p =>
    have hp := FileSystem.isPlace_of_find hfind
    have hstat : fs.stat (render p) = fs.tree.node p := by
      simp [FileSystem.stat, FileSystem.find_render hp]
    simp only [Option.map_some, Option.some.injEq, forall_eq', hstat]
    by_cases hpass : strneq serveDir (render p) (strlen serveDir) = true
    · simp only [hpass, if_true, true_implies]
      cases hnode : fs.tree.node p with
      | none => exact iff_of_true hnotFound trivial
      | some node =>
        cases node with
        | regular =>
          refine iff_of_true (lookupSound_of_is .file ?_) trivial
          exact ⟨rfl, rfl, _, rfl, Or.inl ⟨.regular, hstat.trans hnode, by simp⟩⟩
        | directory entries => exact lookupSound_directory_iff hp hnode
        | symlink target => exact iff_of_false not_lookupSound_new id
        | special => exact iff_of_false not_lookupSound_new id
    · simp only [hpass, Bool.false_eq_true, if_false, false_implies, iff_true]
      exact hnotFound

/-- A tree with a FIFO in the root. -/
def fifoNode (p : Place) : Option (FileNode UInt8) :=
  match p.map PathName.text with
  | [] => some (.directory [ascii ".", ascii "..", ascii "fifo"])
  | [name] => if name = ascii "fifo" then some .special else none
  | _ => none

/-- The file system with that tree. -/
def fifoFileSystem : FileSystem where
  tree := ⟨fifoNode, fun _ => true, [], .root (by decide)⟩
  openable := fun _ => true
  content := fun _ => []
  mtime := fun _ => []

/-- The lookup of the FIFO results in no error and no path. -/
theorem not_lookupSound_fifo :
    ¬LookupSound fifoFileSystem configHostNew
      (serverDetermineFile fifoFileSystem configHostNew (ascii "/") (ascii "/fifo")) := by
  have hresult : serverDetermineFile fifoFileSystem configHostNew (ascii "/") (ascii "/fifo") =
      serverFileResultNew := by
    decide +kernel
  rw [hresult]
  exact not_lookupSound_new

end Khttp
