import Khttp.HttpServer
import Khttp.Lib.Words

/-!
# The table of file types

`mime.c`: the lines of the file, the two fields that `sscanf` reads in a line, and the list of
extensions that they become.
-/

namespace Khttp

open Lib

/-- The blanks ` \t` of the formats. -/
def isblank (c : UInt8) : Bool := c = 32 || c = 9

/-- The characters `a-z0-9` of the second conversion. -/
def extensionChar (c : UInt8) : Bool :=
  (byte 'a' ≤ c && c ≤ byte 'z') || (byte '0' ≤ c && c ≤ byte '9')

/-- `sscanf` with `"%511s%*[ \t]%511[a-z0-9 \t]"`: the two fields, where it finds both. -/
def sscanfMime (line : Bytes) : Option (Bytes × Bytes) :=
  let input := (cstr line).dropWhile isspace
  let mime := (input.takeWhile (!isspace ·)).take 511
  let behind := input.drop mime.length
  let extstr := (behind.dropWhile isblank).takeWhile fun c => extensionChar c || isblank c
  let extstr := extstr.take 511
  if mime = [] ∨ behind.takeWhile isblank = [] ∨ extstr = [] then none else some (mime, extstr)

/-- What `getline` reads until the end of the file, where the buffer holds the start of a line. -/
def getlineLoop : Bytes → Bytes → List Bytes
  | buffer, [] => if buffer = [] then [] else [buffer]
  | buffer, c :: rest =>
    if c = byte '\n' then (buffer ++ [c]) :: getlineLoop [] rest
    else getlineLoop (buffer ++ [c]) rest

/-- The loop body of `mime_load`. -/
def mimeLoadLine (newList : List MimeType) (buffer : Bytes) : List MimeType :=
  if buffer = [] ∨ buffer.head? = some (byte '#') ∨ buffer.head? = some (byte '\n') then newList
  else
    match sscanfMime buffer with
    | some (mime, extstr) => newList ++ (words isblank extstr).map fun ext => ⟨mime, ext⟩
    | none => newList

/-- `mime_load`: the list afterwards and the result. The file may fail to open. -/
def mimeLoad (list : List MimeType) (mimetypes : Option Bytes) : List MimeType × ℤ :=
  match mimetypes with
  | none => (list, -1)
  | some text =>
    let newList := (getlineLoop [] text).foldl mimeLoadLine []
    (newList, (newList.length : ℤ).bmod (2 ^ 32))

/-- What is loaded from a file, line by line. -/
theorem mimeLoad_some (list : List MimeType) (text : Bytes) :
    (mimeLoad list (some text)).1 = (getlineLoop [] text).flatMap (mimeLoadLine []) := by
  have hloop (lines : List Bytes) (newList : List MimeType) :
      lines.foldl mimeLoadLine newList = newList ++ lines.flatMap (mimeLoadLine []) := by
    induction lines generalizing newList with
    | nil => simp
    | cons line lines ih =>
      have hline : mimeLoadLine newList line = newList ++ mimeLoadLine [] line := by
        unfold mimeLoadLine
        split
        · simp
        · split <;> simp
      rw [List.foldl_cons, ih, hline, List.flatMap_cons, List.append_assoc]
  simpa [mimeLoad] using hloop (getlineLoop [] text) []

/-- The lines that `getline` reads are those of the text, with their ends. -/
theorem flatMap_getlineLoop {β : Type*} {f g : Bytes → List β} {text : Bytes} (hnil : g [] = [])
    (hline : ∀ line ∈ text.splitOn (byte '\n'),
      (line ≠ [] → f line = g line) ∧ f (line ++ [byte '\n']) = g line) :
    (getlineLoop [] text).flatMap f = (text.splitOn (byte '\n')).flatMap g := by
  suffices h : ∀ buffer, byte '\n' ∉ buffer →
      (∀ line ∈ (buffer ++ text).splitOn (byte '\n'),
        (line ≠ [] → f line = g line) ∧ f (line ++ [byte '\n']) = g line) →
      (getlineLoop buffer text).flatMap f = ((buffer ++ text).splitOn (byte '\n')).flatMap g from
    h [] (by simp) hline
  clear hline
  induction text with
  | nil =>
    intro buffer hbuffer hline
    rw [List.append_nil, List.splitOn_eq_singleton hbuffer] at hline ⊢
    rw [getlineLoop]
    split
    · next hempty => simp [hempty, hnil]
    · next hne => simpa using (hline buffer List.mem_cons_self).1 hne
  | cons c rest ih =>
    intro buffer hbuffer hline
    rw [getlineLoop]
    split
    · next hend =>
      subst hend
      rw [List.splitOn_append_cons_self_of_not_mem hbuffer] at hline ⊢
      rw [List.flatMap_cons, List.flatMap_cons, (hline buffer List.mem_cons_self).2,
        ih [] (by simp) fun line hmem => hline line (List.mem_cons_of_mem _ hmem)]
      rfl
    · next hc =>
      have hnext : byte '\n' ∉ buffer ++ [c] := by
        simpa [hbuffer] using fun heq => hc (Eq.symm heq)
      have hjoin : buffer ++ c :: rest = (buffer ++ [c]) ++ rest := by simp
      rw [hjoin] at hline ⊢
      exact ih (buffer ++ [c]) hnext hline

end Khttp
