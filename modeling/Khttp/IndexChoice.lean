import Khttp.Containment
import Mathlib.Data.Finset.Card

/-!
# The choice of an index file

`server_find_directory_index` goes over the entries of a directory in the order of `readdir` and
tries every configured name on each of them, so the first entry with any of the names is taken. The
order of the names has no part in the choice.
-/

namespace Khttp

open Lib

variable {fs : FileSystem} {hconfig : ConfigHost} {path : Bytes} {entries entries' : List Bytes}

/-- The file system where the directory that a path leads to gives its entries in another
order. -/
def FileSystem.relist (fs : FileSystem) (path : Bytes) (entries : List Bytes) : FileSystem :=
  match fs.find path with
  | none => fs
  | some p => { fs with tree := fs.tree.relist p entries }

/-- The directory then gives these entries. -/
theorem FileSystem.opendir_relist (hopen : fs.opendir path = some entries) :
    (fs.relist path entries').opendir path = some entries' := by
  obtain ⟨p, hfind, hopenable, hnode⟩ := opendir_eq_some.mp hopen
  have hfind' : (fs.relist path entries').find path = some p := by
    unfold relist
    rw [hfind]
    exact (FileTree.lookup_relist p entries' maxSymlinks (cstr path)).trans hfind
  refine opendir_eq_some.mpr ⟨p, hfind', ?_, ?_⟩
  · simpa [relist, hfind] using hopenable
  · simp [relist, hfind, FileTree.relist, relistAt, hnode, FileNode.relist]

/-- An entry has one of the configured names, ignoring case. -/
def isIndexEntry (hconfig : ConfigHost) (entry : Bytes) : Bool :=
  hconfig.indexFiles.any (strcaseeq entry)

/-- The entry with the earliest configured name that an entry has, none where no entry has one. -/
inductive EarliestIndex (hconfig : ConfigHost) (entries : List Bytes) : Option Bytes → Prop
  | absent (habsent : ∀ entry ∈ entries, isIndexEntry hconfig entry = false) :
      EarliestIndex hconfig entries none
  | present {before after : List Bytes} {name entry : Bytes}
      (hnames : hconfig.indexFiles = before ++ name :: after) (hmem : entry ∈ entries)
      (hname : strcaseeq entry name = true)
      (hearlier : ∀ earlier ∈ before, ∀ other ∈ entries, strcaseeq other earlier = false) :
      EarliestIndex hconfig entries (some entry)

/-- In whatever order the directory gives its entries, the path of the same entry is found: the one
with the earliest name. -/
def IndexFixed (fs : FileSystem) (hconfig : ConfigHost) (path : Bytes) (entries : List Bytes) :
    Prop :=
  ∃ chosen, EarliestIndex hconfig entries chosen ∧
    ∀ entries', entries'.Perm entries →
      serverFindDirectoryIndex (fs.relist path entries') hconfig path =
        chosen.map (entryPath path)

/-- What is found in an order of the entries. -/
theorem serverFindDirectoryIndex_relist (hopen : fs.opendir path = some entries) :
    serverFindDirectoryIndex (fs.relist path entries') hconfig path =
      (entries'.find? (isIndexEntry hconfig)).map (entryPath path) := by
  unfold serverFindDirectoryIndex
  rw [FileSystem.opendir_relist hopen, Option.bind_some]
  rfl

/-- An entry with a configured name has an earliest one. -/
theorem exists_earliestIndex {entry : Bytes} (hmem : entry ∈ entries)
    (hindex : isIndexEntry hconfig entry = true)
    (honly : ∀ other ∈ entries, isIndexEntry hconfig other = true → other = entry) :
    EarliestIndex hconfig entries (some entry) := by
  obtain ⟨name, hfound⟩ : ∃ name, hconfig.indexFiles.find? (strcaseeq entry) = some name := by
    apply Option.isSome_iff_exists.mp
    rw [List.find?_isSome]
    simpa [isIndexEntry] using hindex
  obtain ⟨hname, before, after, hnames, hbefore⟩ := List.find?_eq_some_iff_append.mp hfound
  refine .present hnames hmem hname fun earlier hearlier other hother => ?_
  by_contra hhas
  rw [Bool.not_eq_false] at hhas
  -- an entry with an earlier name would be this one, which has none
  have hindex' : isIndexEntry hconfig other = true := by
    apply List.any_eq_true.mpr
    exact ⟨earlier, by simp [hnames, hearlier], hhas⟩
  obtain rfl := honly other hother hindex'
  simpa [hhas] using hbefore earlier hearlier

/-- The only entry with a property is found in every order. -/
theorem find?_eq_some_of_unique {p : Bytes → Bool} {entry : Bytes} (hmem : entry ∈ entries)
    (hp : p entry = true) (honly : ∀ other ∈ entries, p other = true → other = entry) :
    entries.find? p = some entry := by
  obtain ⟨found, hfound⟩ : ∃ found, entries.find? p = some found := by
    apply Option.isSome_iff_exists.mp
    rw [List.find?_isSome]
    exact ⟨entry, hmem, hp⟩
  rw [hfound, honly found (List.mem_of_find?_eq_some hfound) (List.find?_some hfound)]

/-- At most one entry of a set has a property exactly when any two with it are the same. -/
theorem countP_le_one_iff {p : Bytes → Bool} (hset : entries.Nodup) :
    entries.countP p ≤ 1 ↔
      ∀ entry ∈ entries, p entry = true → ∀ other ∈ entries, p other = true → entry = other := by
  rw [List.countP_eq_length_filter, ← List.toFinset_card_of_nodup (hset.filter p),
    Finset.card_le_one]
  simp

/-- With at most one entry that has a name the choice is fixed. -/
theorem indexFixed_of_countP_le_one (hopen : fs.opendir path = some entries)
    (hset : entries.Nodup) (hcount : entries.countP (isIndexEntry hconfig) ≤ 1) :
    IndexFixed fs hconfig path entries := by
  cases hfound : entries.find? (isIndexEntry hconfig) with
  | none =>
    rw [List.find?_eq_none] at hfound
    refine ⟨none, .absent fun entry hentry => by simpa using hfound entry hentry, ?_⟩
    intro entries' hperm
    have hfound' : entries'.find? (isIndexEntry hconfig) = none := by
      rw [List.find?_eq_none]
      exact fun entry hentry => hfound entry (hperm.mem_iff.mp hentry)
    rw [serverFindDirectoryIndex_relist hopen, hfound']
  | some entry =>
    have hmem := List.mem_of_find?_eq_some hfound
    have hindex := List.find?_some hfound
    have honly : ∀ other ∈ entries, isIndexEntry hconfig other = true → other = entry := by
      intro other hother hhas
      exact (countP_le_one_iff hset).mp hcount other hother hhas entry hmem hindex
    refine ⟨some entry, exists_earliestIndex hmem hindex honly, ?_⟩
    intro entries' hperm
    have hfound' : entries'.find? (isIndexEntry hconfig) = some entry :=
      find?_eq_some_of_unique (hperm.mem_iff.mpr hmem) hindex
        fun other hother => honly other (hperm.mem_iff.mp hother)
    rw [serverFindDirectoryIndex_relist hopen, hfound']

/-- An entry that is moved to the front is found when it has a name. -/
theorem serverFindDirectoryIndex_front {entry : Bytes} {others : List Bytes}
    (hopen : fs.opendir path = some entries) (hindex : isIndexEntry hconfig entry = true) :
    serverFindDirectoryIndex (fs.relist path (entry :: others)) hconfig path =
      some (entryPath path entry) := by
  rw [serverFindDirectoryIndex_relist hopen, List.find?_cons_of_pos hindex, Option.map_some]

/-- The path of an entry tells its name. -/
theorem cstr_eq_of_entryPath_eq {entry other : Bytes}
    (h : entryPath path entry = entryPath path other) : cstr entry = cstr other := by
  unfold entryPath at h
  exact List.append_cancel_left h

/-- Where the choice is fixed at most one entry of the set has a name. -/
theorem countP_le_one_of_indexFixed (hopen : fs.opendir path = some entries)
    (hset : (entries.map cstr).Nodup) (hfixed : IndexFixed fs hconfig path entries) :
    entries.countP (isIndexEntry hconfig) ≤ 1 := by
  obtain ⟨chosen, _, hchosen⟩ := hfixed
  -- whichever entry is moved to the front is the one that was chosen
  have hfront (entry : Bytes) (hmem : entry ∈ entries)
      (hindex : isIndexEntry hconfig entry = true) :
      chosen.map (entryPath path) = some (entryPath path entry) := by
    rw [← hchosen _ (List.perm_cons_erase hmem).symm]
    exact serverFindDirectoryIndex_front hopen hindex
  apply (countP_le_one_iff (List.Nodup.of_map _ hset)).mpr
  intro entry hmem hindex other hmem' hindex'
  have hpath := (hfront entry hmem hindex).symm.trans (hfront other hmem' hindex')
  exact List.inj_on_of_nodup_map hset hmem hmem'
    (cstr_eq_of_entryPath_eq (Option.some.inj hpath))

/-- The choice is fixed exactly when at most one entry of the set has a configured name. -/
theorem indexFixed_iff (hopen : fs.opendir path = some entries)
    (hset : (entries.map cstr).Nodup) :
    IndexFixed fs hconfig path entries ↔ entries.countP (isIndexEntry hconfig) ≤ 1 := by
  constructor
  · exact countP_le_one_of_indexFixed hopen hset
  · exact indexFixed_of_countP_le_one hopen (List.Nodup.of_map _ hset)

/-- The entries of a directory with two files that may be its index. -/
def siteEntries : List Bytes :=
  [ascii ".", ascii "..", ascii "index.php", ascii "index.html"]

/-- A tree with these files in the root. -/
def siteNode (p : Place) : Option (FileNode UInt8) :=
  match p.map PathName.text with
  | [] => some (.directory siteEntries)
  | [name] => if name ∈ siteEntries then some .regular else none
  | _ => none

/-- The file system with that tree. -/
def siteFileSystem : FileSystem where
  tree := ⟨siteNode, fun _ => true, [], .root (by decide)⟩
  openable := fun _ => true
  content := fun _ => []
  mtime := fun _ => []

/-- A host without a list of its own always takes the one file it names. -/
theorem indexFixed_site : IndexFixed siteFileSystem configHostNew (ascii "/") siteEntries :=
  (indexFixed_iff (by decide +kernel) (by decide +kernel)).mpr (by decide +kernel)

/-- A host that names both files takes the second one where it is read first. -/
theorem not_indexFixed_site :
    ¬IndexFixed siteFileSystem
      { configHostNew with indexFiles := [ascii "index.html", ascii "index.php"] } (ascii "/")
      siteEntries := by
  rintro ⟨chosen, _, hchosen⟩
  have hread := hchosen siteEntries (List.Perm.refl _)
  have hreversed := hchosen siteEntries.reverse (List.reverse_perm _)
  rw [← hreversed] at hread
  revert hread
  decide +kernel

end Khttp
