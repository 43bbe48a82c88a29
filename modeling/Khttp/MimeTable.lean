import Khttp.Mime

/-!
# The type of a file is the one that the table gives

A line of `mime.types` names a type and lists the extensions of its files. The character set of
the format has no capitals, dashes, underscores, dots and plus signs, so a line is loaded up to
the first such character in its list.
-/

namespace Khttp

open Lib

/-- A line of the table. -/
structure MimeEntry where
  /-- The type. -/
  mime : Bytes
  /-- The extensions that the line lists. -/
  tokens : List Bytes
  deriving DecidableEq, Repr

/-- The list of extensions in a line, as text. -/
def mimeField (line : Bytes) : Bytes := (line.dropWhile (!isblank ·)).dropWhile isblank

/-- A line of the form type, blanks, extensions separated by blanks. -/
def mimeEntry (line : Bytes) : MimeEntry :=
  ⟨line.takeWhile (!isblank ·), words isblank (mimeField line)⟩

/-- A line that is neither empty nor a comment. -/
def isMimeEntry (line : Bytes) : Bool := !line.isEmpty && line.head? != some (byte '#')

/-- The table that a text spells. -/
def mimeTable (text : Bytes) : List MimeEntry :=
  ((text.splitOn (byte '\n')).filter isMimeEntry).map mimeEntry

/-- The lines of the table start with the type, consist of printable characters and blanks, and
have fields that are shorter than 511 bytes. -/
structure MimeLine (line : Bytes) : Prop where
  /-- Nothing stands before the type. -/
  starts : line.head?.all (!isblank ·) = true
  /-- Neither other white space nor a zero byte stands in the line. -/
  printable : ∀ c ∈ line, isblank c = true ∨ (isspace c = false ∧ c ≠ 0)
  /-- The type is short. -/
  mime_lt : (mimeEntry line).mime.length < 511
  /-- The list of extensions is short. -/
  field_lt : (mimeField line).length < 511

/-- A text of `mime.types`. -/
structure MimeText where
  /-- The file. -/
  text : Bytes
  /-- Its lines have the form that the table asks for. -/
  lines : ∀ line ∈ text.splitOn (byte '\n'), isMimeEntry line = true → MimeLine line

/-- The type of the first line for which an extension is among some of its own. -/
def firstType (table : List MimeEntry) (extensions : List Bytes → List Bytes) (e : Bytes) :
    Option Bytes :=
  (table.find? fun entry => (extensions entry.tokens).contains e).map MimeEntry.mime

/-- The first token with a dot, up to the first character outside `a-z0-9`, and all tokens that
stand behind it. -/
def disputed : List Bytes → List Bytes
  | [] => []
  | token :: rest =>
    if byte '.' ∈ token then token.takeWhile extensionChar :: rest else disputed rest

/-- What is left of the extensions of a line where it is cut at the first character outside
`a-z0-9`. -/
def loadedTokens (tokens : List Bytes) : List Bytes := cutWords extensionChar tokens

namespace MimeText

/-- Every file name with a dot gets the type of the first line that lists what follows the last
dot, and the type that the magic library knows where no line does. -/
def Right (file : MimeText) : Prop :=
  ∀ (list : List MimeType) (magicFile : Bytes → Option Bytes) (name e fallback : Bytes),
    0 ∉ name → 0 ∉ e → byte '.' ∉ e →
      mimeListGetType (mimeLoad list (some file.text)).1 magicFile (name ++ byte '.' :: e)
          fallback =
        (firstType (mimeTable file.text) id e).getD
          ((magicFile (name ++ byte '.' :: e)).getD fallback)

/-- The tokens without a dot consist of `a-z0-9`. Where a token has a dot, what it costs does not
matter: its front and the tokens behind it have the same type by the tokens that are left. -/
structure Plain (file : MimeText) : Prop where
  /-- The tokens that can be asked for consist of `a-z0-9`. -/
  legible : ∀ entry ∈ mimeTable file.text, ∀ token ∈ entry.tokens, byte '.' ∉ token →
    token.all extensionChar = true
  /-- Nothing depends on the tokens from the first one with a dot on. -/
  agree : ∀ entry ∈ mimeTable file.text, ∀ e ∈ disputed entry.tokens, byte '.' ∉ e →
    firstType (mimeTable file.text) id e = firstType (mimeTable file.text) loadedTokens e

end MimeText

/-! ### What is loaded of a line -/

/-- What a line of the table adds to the list. -/
def loadedEntry (entry : MimeEntry) : List MimeType :=
  (loadedTokens entry.tokens).map fun ext => ⟨entry.mime, ext⟩

/-- A scan that stops at the end of a line does not look at it. -/
theorem takeWhile_append_end {p : UInt8 → Bool} (hp : p (byte '\n') = false) (line : Bytes)
    {tail : Bytes} (htail : tail = [] ∨ tail = [byte '\n']) :
    (line ++ tail).takeWhile p = line.takeWhile p := by
  rcases htail with rfl | rfl
  · rw [List.append_nil]
  · induction line with
    | nil => simp [hp]
    | cons c rest ih =>
      by_cases hc : p c = true
      · simp [hc, ih]
      · simp [hc]

/-- A scan that stops at the end of a line leaves it. -/
theorem dropWhile_append_end {p : UInt8 → Bool} (hp : p (byte '\n') = false) (line : Bytes)
    {tail : Bytes} (htail : tail = [] ∨ tail = [byte '\n']) :
    (line ++ tail).dropWhile p = line.dropWhile p ++ tail := by
  rcases htail with rfl | rfl
  · rw [List.append_nil, List.append_nil]
  · induction line with
    | nil => simp [hp]
    | cons c rest ih =>
      by_cases hc : p c = true
      · simp [hc, ih]
      · simp [hc]

/-- The blanks of the formats are white space. -/
theorem isspace_of_isblank {c : UInt8} (h : isblank c = true) : isspace c = true := by
  have hcases : c = 32 ∨ c = 9 := by simpa [isblank] using h
  rcases hcases with rfl | rfl <;> decide

/-- In a line of the table the blanks are the white space. -/
theorem MimeLine.isspace_eq {line : Bytes} (h : MimeLine line) {c : UInt8} (hc : c ∈ line) :
    isspace c = isblank c := by
  rcases h.printable c hc with hblank | ⟨hspace, -⟩
  · rw [hblank, isspace_of_isblank hblank]
  · cases hblank : isblank c with
    | false => exact hspace
    | true => rw [isspace_of_isblank hblank]

/-- The first conversion reads the type. -/
theorem MimeLine.takeWhile_isspace {line : Bytes} (h : MimeLine line) :
    line.takeWhile (!isspace ·) = line.takeWhile (!isblank ·) := by
  have hcongr (part : Bytes) (hpart : ∀ c ∈ part, c ∈ line) :
      part.takeWhile (!isspace ·) = part.takeWhile (!isblank ·) := by
    induction part with
    | nil => rfl
    | cons c rest ih =>
      rw [List.takeWhile_cons, List.takeWhile_cons, h.isspace_eq (hpart c List.mem_cons_self),
        ih fun d hd => hpart d (List.mem_cons_of_mem _ hd)]
  exact hcongr line fun _ hc => hc

/-- A line of the table is read from its start and to its end. -/
theorem MimeLine.dropWhile_cstr {line tail : Bytes} (h : MimeLine line) (hne : line ≠ [])
    (htail : tail = [] ∨ tail = [byte '\n']) :
    (cstr (line ++ tail)).dropWhile isspace = line ++ tail := by
  have hclean : 0 ∉ line ++ tail := by
    intro hzero
    rcases List.mem_append.mp hzero with hline | hend
    · rcases h.printable 0 hline with hblank | ⟨-, hzero⟩
      · exact absurd hblank (by decide)
      · exact hzero rfl
    · rcases htail with rfl | rfl
      · simp at hend
      · exact absurd hend (by decide)
  rw [cstr_of_zero_notMem hclean]
  obtain ⟨c, rest, rfl⟩ := List.exists_cons_of_ne_nil hne
  have hstart : isblank c = false := by simpa using h.starts
  rw [List.cons_append, List.dropWhile_cons_of_neg]
  simp [h.isspace_eq List.mem_cons_self, hstart]

/-- The type of a line of the table is there. -/
theorem MimeLine.mime_ne_nil {line : Bytes} (h : MimeLine line) (hne : line ≠ []) :
    (mimeEntry line).mime ≠ [] := by
  obtain ⟨c, rest, rfl⟩ := List.exists_cons_of_ne_nil hne
  have hstart : isblank c = false := by simpa using h.starts
  simp [mimeEntry, hstart]

/-- Where no blank follows the type, no extension does. -/
theorem mimeField_eq_nil {line : Bytes}
    (h : (line.dropWhile (!isblank ·)).takeWhile isblank = []) : mimeField line = [] := by
  rw [mimeField]
  cases hbehind : line.dropWhile (!isblank ·) with
  | nil => rfl
  | cons c rest =>
    have hblank : isblank c = true := by
      have hhead := List.head?_dropWhile_not (!isblank ·) line
      simpa [hbehind] using hhead
    simp [hbehind, hblank] at h

/-- The fields of a line of the table, as `sscanf` reads them. -/
theorem MimeLine.sscanfMime_eq {line tail : Bytes} (h : MimeLine line) (hne : line ≠ [])
    (htail : tail = [] ∨ tail = [byte '\n']) :
    sscanfMime (line ++ tail) =
      let extstr := (mimeField line).takeWhile fun c => extensionChar c || isblank c
      if extstr = [] then none else some ((mimeEntry line).mime, extstr) := by
  have hmime : ((line ++ tail).takeWhile (!isspace ·)).take 511 = (mimeEntry line).mime := by
    have hshort := h.mime_lt
    rw [takeWhile_append_end (by decide) line htail, h.takeWhile_isspace]
    exact List.take_of_length_le (by simp only [mimeEntry] at hshort; omega)
  have hbehind : (line ++ tail).drop (mimeEntry line).mime.length =
      line.dropWhile (!isblank ·) ++ tail := by
    have hjoin : (mimeEntry line).mime ++ (line.dropWhile (!isblank ·) ++ tail) = line ++ tail := by
      rw [← List.append_assoc]
      exact congrArg (· ++ tail) List.takeWhile_append_dropWhile
    rw [← hjoin, List.drop_left]
  have hext : ((mimeField line ++ tail).takeWhile fun c => extensionChar c || isblank c).take 511 =
      (mimeField line).takeWhile fun c => extensionChar c || isblank c := by
    have hshort := h.field_lt
    have hfront := (List.takeWhile_prefix (l := mimeField line)
      fun c => extensionChar c || isblank c).length_le
    rw [takeWhile_append_end (by decide) _ htail]
    exact List.take_of_length_le (by omega)
  have hgap : (line.dropWhile (!isblank ·) ++ tail).takeWhile isblank =
      (line.dropWhile (!isblank ·)).takeWhile isblank := takeWhile_append_end (by decide) _ htail
  have hfield : (line.dropWhile (!isblank ·) ++ tail).dropWhile isblank = mimeField line ++ tail :=
    dropWhile_append_end (by decide) _ htail
  unfold sscanfMime
  simp only [h.dropWhile_cstr hne htail, hmime, hbehind, hgap, hfield, hext, h.mime_ne_nil hne,
    false_or]
  by_cases hblanks : (line.dropWhile (!isblank ·)).takeWhile isblank = []
  · simp [hblanks, mimeField_eq_nil hblanks]
  · simp [hblanks]

/-- A line of the table is loaded up to the first character that is not allowed. -/
theorem MimeLine.mimeLoadLine_eq {line tail : Bytes} (h : MimeLine line)
    (hentry : isMimeEntry line = true) (htail : tail = [] ∨ tail = [byte '\n']) :
    mimeLoadLine [] (line ++ tail) = loadedEntry (mimeEntry line) := by
  obtain ⟨hsome, hcomment⟩ : line ≠ [] ∧ line.head? ≠ some (byte '#') := by
    simpa [isMimeEntry] using hentry
  obtain ⟨c, rest, rfl⟩ := List.exists_cons_of_ne_nil hsome
  have hend : c ≠ byte '\n' := by
    rintro rfl
    rcases h.printable _ List.mem_cons_self with hblank | ⟨hspace, -⟩
    · exact absurd hblank (by decide)
    · exact absurd hspace (by decide)
  have hhead : ¬ (c :: rest ++ tail = [] ∨ (c :: rest ++ tail).head? = some (byte '#') ∨
      (c :: rest ++ tail).head? = some (byte '\n')) := by
    simpa [hend] using hcomment
  rw [mimeLoadLine, if_neg hhead, h.sscanfMime_eq hsome htail]
  have hloaded : loadedTokens (mimeEntry (c :: rest)).tokens = words isblank
      ((mimeField (c :: rest)).takeWhile fun c => extensionChar c || isblank c) :=
    (words_takeWhile _).symm
  rw [loadedEntry, hloaded]
  by_cases hempty : ((mimeField (c :: rest)).takeWhile fun c => extensionChar c || isblank c) = []
  · simp [hempty]
  · simp [hempty]

/-- Empty lines and comments are not loaded. -/
theorem mimeLoadLine_of_not_entry {line : Bytes} (h : isMimeEntry line = false) :
    (line ≠ [] → mimeLoadLine [] line = []) ∧ mimeLoadLine [] (line ++ [byte '\n']) = [] := by
  cases line with
  | nil => simp [mimeLoadLine]
  | cons c rest =>
    obtain rfl : c = byte '#' := by simpa [isMimeEntry] using h
    simp [mimeLoadLine]

namespace MimeText

variable {file : MimeText} {e : Bytes}

/-- What is loaded from the table. -/
theorem mimeLoad_eq (file : MimeText) (list : List MimeType) :
    (mimeLoad list (some file.text)).1 = (mimeTable file.text).flatMap loadedEntry := by
  have hline : ∀ line ∈ file.text.splitOn (byte '\n'),
      (line ≠ [] → mimeLoadLine [] line =
          if isMimeEntry line then loadedEntry (mimeEntry line) else []) ∧
        mimeLoadLine [] (line ++ [byte '\n']) =
          if isMimeEntry line then loadedEntry (mimeEntry line) else [] := by
    intro line hmem
    cases hentry : isMimeEntry line with
    | false => exact mimeLoadLine_of_not_entry hentry
    | true =>
      have hform := file.lines line hmem hentry
      have hlast := hform.mimeLoadLine_eq hentry (Or.inl rfl)
      rw [List.append_nil] at hlast
      exact ⟨fun _ => hlast, hform.mimeLoadLine_eq hentry (Or.inr rfl)⟩
  have hfilter (lines : List Bytes) :
      (lines.flatMap fun line => if isMimeEntry line then loadedEntry (mimeEntry line) else []) =
        ((lines.filter isMimeEntry).map mimeEntry).flatMap loadedEntry := by
    induction lines with
    | nil => rfl
    | cons line lines ih => cases hentry : isMimeEntry line <;> simp [hentry, ih]
  rw [mimeLoad_some, flatMap_getlineLoop (by simp [isMimeEntry]) hline, hfilter, mimeTable]

/-- The letters of a listed token. -/
theorem of_mem_tokens {entry : MimeEntry} {token : Bytes} (hentry : entry ∈ mimeTable file.text)
    (htoken : token ∈ entry.tokens) : token ≠ [] ∧ 0 ∉ token := by
  obtain ⟨line, hline, rfl⟩ := List.mem_map.mp hentry
  obtain ⟨hmem, hkind⟩ := List.mem_filter.mp hline
  have hword := of_mem_words htoken
  refine ⟨hword.1, fun hzero => ?_⟩
  obtain ⟨hfield, -⟩ := hword.2 0 hzero
  have hinline : 0 ∈ line := by
    have hbehind := (List.dropWhile_suffix isblank).subset hfield
    exact (List.dropWhile_suffix (!isblank ·)).subset hbehind
  rcases (file.lines line hmem hkind).printable 0 hinline with hblank | ⟨-, hne⟩
  · exact absurd hblank (by decide)
  · exact hne rfl

/-- The letters of a loaded extension. -/
theorem of_mem_loadedTokens {tokens : List Bytes} {ext : Bytes} (h : ext ∈ loadedTokens tokens) :
    0 ∉ ext ∧ byte '.' ∉ ext := by
  have hall := List.all_eq_true.mp (all_of_mem_cutWords h)
  refine ⟨fun hzero => ?_, fun hdot => ?_⟩
  · exact absurd (hall _ hzero) (by decide)
  · exact absurd (hall _ hdot) (by decide)

/-- The search through what a line added. -/
theorem find?_loadedEntry (entry : MimeEntry) (e : Bytes) :
    (loadedEntry entry).find? (fun elem => e == cstr elem.extension) =
      if e ∈ loadedTokens entry.tokens then some ⟨entry.mime, e⟩ else none := by
  have hfind (exts : List Bytes) (hexts : ∀ ext ∈ exts, 0 ∉ ext) :
      ((exts.map fun ext => (⟨entry.mime, ext⟩ : MimeType)).find? fun elem =>
        e == cstr elem.extension) = if e ∈ exts then some ⟨entry.mime, e⟩ else none := by
    induction exts with
    | nil => rfl
    | cons ext exts ih =>
      have hthis : cstr ext = ext := cstr_of_zero_notMem (hexts ext List.mem_cons_self)
      rw [List.map_cons, List.find?_cons, hthis, ih fun x hx => hexts x (List.mem_cons_of_mem _ hx)]
      by_cases hsame : e = ext
      · simp [hsame]
      · have hne : (e == ext) = false := by simpa using hsame
        simp [hne, hsame]
  exact hfind _ fun ext hext => (of_mem_loadedTokens hext).1

/-- The search through the list finds the first line of which the extension was loaded. -/
theorem find?_flatMap_loadedEntry (table : List MimeEntry) (e : Bytes) :
    ((table.flatMap loadedEntry).find? fun elem => e == cstr elem.extension).map MimeType.mime =
      firstType table loadedTokens e := by
  induction table with
  | nil => rfl
  | cons entry table ih =>
    rw [List.flatMap_cons, List.find?_append, find?_loadedEntry, firstType, List.find?_cons]
    by_cases hmem : e ∈ loadedTokens entry.tokens
    · simp [hmem]
    · simpa [hmem, firstType] using ih

/-- What follows the last dot of a file name. -/
theorem strrchr_dot {name : Bytes} (hname : 0 ∉ name) (hzero : 0 ∉ e) (hdot : byte '.' ∉ e) :
    strrchr (byte '.') (name ++ byte '.' :: e) = some (byte '.' :: e) := by
  have hclean : 0 ∉ name ++ byte '.' :: e := by
    have hne : (0 : UInt8) ≠ byte '.' := by decide
    simp [hname, hzero, hne]
  have hlast : ((name ++ byte '.' :: e).reverse.takeWhile (· ≠ byte '.')).reverse = e := by
    rw [List.reverse_append, List.reverse_cons, List.append_assoc, List.takeWhile_append_of_pos]
    · simp
    · intro c hc
      have hne : c ≠ byte '.' := by
        rintro rfl
        exact hdot (List.mem_reverse.mp hc)
      simpa using hne
  rw [strrchr, cstr_of_zero_notMem hclean, if_pos (by simp), hlast]

/-- What the function gives for a file name with a dot. -/
theorem mimeListGetType_eq (file : MimeText) (list : List MimeType)
    (magicFile : Bytes → Option Bytes) {name : Bytes} (fallback : Bytes) (hname : 0 ∉ name)
    (hzero : 0 ∉ e) (hdot : byte '.' ∉ e) :
    mimeListGetType (mimeLoad list (some file.text)).1 magicFile (name ++ byte '.' :: e) fallback =
      (firstType (mimeTable file.text) loadedTokens e).getD
        ((magicFile (name ++ byte '.' :: e)).getD fallback) := by
  rw [← find?_flatMap_loadedEntry, ← file.mimeLoad_eq list, mimeListGetType,
    strrchr_dot hname hzero hdot]
  cases e with
  | nil =>
    have hnone : ((mimeLoad list (some file.text)).1.find? fun elem =>
        [] == cstr elem.extension) = none := by
      refine List.find?_eq_none.mpr fun elem helem => ?_
      rw [file.mimeLoad_eq] at helem
      obtain ⟨entry, hentry, hmem⟩ := List.mem_flatMap.mp helem
      obtain ⟨ext, hext, rfl⟩ := List.mem_map.mp hmem
      have hne := ne_nil_of_mem_cutWords (fun token ht => (of_mem_tokens hentry ht).1) hext
      rw [cstr_of_zero_notMem (of_mem_loadedTokens hext).1]
      simpa using Ne.symm hne
    rw [hnone]
    rfl
  | cons c rest =>
    cases hfind : (mimeLoad list (some file.text)).1.find? fun elem =>
        c :: rest == cstr elem.extension with
    | none => simp [hfind]
    | some elem => simp [hfind]

/-- The types of two kinds of tokens are the same for an extension that the same lines have. -/
theorem firstType_congr {table : List MimeEntry} {f g : List Bytes → List Bytes}
    (h : ∀ entry ∈ table, e ∈ f entry.tokens ↔ e ∈ g entry.tokens) :
    firstType table f e = firstType table g e := by
  induction table with
  | nil => rfl
  | cons entry table ih =>
    have hlater := ih fun other hother => h other (List.mem_cons_of_mem _ hother)
    rw [firstType, firstType] at hlater ⊢
    rw [List.find?_cons, List.find?_cons]
    have hhere := h entry List.mem_cons_self
    by_cases hmem : e ∈ f entry.tokens
    · simp [hmem, hhere.mp hmem]
    · have hnot : e ∉ g entry.tokens := fun hg => hmem (hhere.mpr hg)
      simpa [hmem, hnot] using hlater

/-- A line has a type for the extensions that some line has. -/
theorem exists_of_firstType {table : List MimeEntry} {f : List Bytes → List Bytes} :
    (firstType table f e).isSome = true ↔ ∃ entry ∈ table, e ∈ f entry.tokens := by
  simp [firstType]

/-- Where the tokens that can be asked for are legible, a line is loaded as it is written but for
what is disputed. -/
theorem mem_loadedTokens_iff {tokens : List Bytes}
    (hlegible : ∀ token ∈ tokens, byte '.' ∉ token → token.all extensionChar = true)
    (hdot : byte '.' ∉ e) (hdisputed : e ∉ disputed tokens) :
    e ∈ tokens ↔ e ∈ loadedTokens tokens := by
  induction tokens with
  | nil => simp [loadedTokens, cutWords]
  | cons token rest ih =>
    rw [disputed] at hdisputed
    by_cases htoken : byte '.' ∈ token
    · have hstop : ¬ token.all extensionChar = true := by
        intro hall
        exact absurd (List.all_eq_true.mp hall _ htoken) (by decide)
      have hne : e ≠ token := by
        rintro rfl
        exact hdot htoken
      rw [if_pos htoken] at hdisputed
      rw [loadedTokens, cutWords, if_neg hstop]
      simp only [List.mem_cons, not_or] at hdisputed
      simp [hne, hdisputed]
    · rw [if_neg htoken] at hdisputed
      have hlater := ih (fun t ht => hlegible t (List.mem_cons_of_mem _ ht)) hdisputed
      rw [loadedTokens, cutWords, if_pos (hlegible token List.mem_cons_self htoken),
        List.mem_cons, List.mem_cons, hlater, loadedTokens]

/-- What is disputed comes from the tokens. -/
theorem exists_of_mem_disputed {tokens : List Bytes} (h : e ∈ disputed tokens) :
    ∃ token ∈ tokens, e <+: token := by
  induction tokens with
  | nil => simp [disputed] at h
  | cons token rest ih =>
    rw [disputed] at h
    split at h
    · rcases List.mem_cons.mp h with rfl | hlater
      · exact ⟨token, List.mem_cons_self, List.takeWhile_prefix _⟩
      · exact ⟨e, List.mem_cons_of_mem _ hlater, List.prefix_rfl⟩
    · obtain ⟨other, hother, hfront⟩ := ih h
      exact ⟨other, List.mem_cons_of_mem _ hother, hfront⟩

/-- Two types that may be missing are the same where they are replaced by the same fallback. -/
theorem eq_of_getD {a b : Option Bytes} (h : ∀ fallback, a.getD fallback = b.getD fallback) :
    a = b := by
  have hne (found : Bytes) : found ≠ 0 :: found := by
    intro heq
    simpa using congrArg List.length heq
  cases a with
  | none =>
    cases b with
    | none => rfl
    | some found => exact absurd (h (0 :: found)).symm (hne found)
  | some found =>
    cases b with
    | none => exact absurd (h (0 :: found)) (hne found)
    | some other => exact congrArg some (h [])

/-- The types are right exactly where the loaded tokens have the types of the listed ones. -/
theorem right_iff_firstType (file : MimeText) :
    file.Right ↔ ∀ e, 0 ∉ e → byte '.' ∉ e →
      firstType (mimeTable file.text) id e = firstType (mimeTable file.text) loadedTokens e := by
  constructor
  · intro h e hzero hdot
    refine eq_of_getD fun fallback => ?_
    have hright := h [] (fun _ => none) [] e fallback (by simp) hzero hdot
    rw [file.mimeListGetType_eq [] _ fallback (by simp) hzero hdot] at hright
    exact hright.symm
  · intro h list magicFile name e fallback hname hzero hdot
    rw [file.mimeListGetType_eq list magicFile fallback hname hzero hdot, h e hzero hdot]

end MimeText

/-- The types of files are right exactly where the tokens that can be asked for consist of `a-z0-9`
and nothing depends on what tokens with a dot cost. -/
theorem mimeRight_iff (file : MimeText) : file.Right ↔ file.Plain := by
  rw [file.right_iff_firstType]
  constructor
  · intro h
    refine ⟨fun entry hentry token htoken hdot => ?_, fun entry hentry e he hdot => ?_⟩
    · have hsame := h token (MimeText.of_mem_tokens hentry htoken).2 hdot
      have hlisted : (firstType (mimeTable file.text) id token).isSome = true :=
        MimeText.exists_of_firstType.mpr ⟨entry, hentry, htoken⟩
      rw [hsame] at hlisted
      obtain ⟨_, _, hloaded⟩ := MimeText.exists_of_firstType.mp hlisted
      exact all_of_mem_cutWords hloaded
    · obtain ⟨token, htoken, hfront⟩ := MimeText.exists_of_mem_disputed he
      exact h e (fun hzero => (MimeText.of_mem_tokens hentry htoken).2 (hfront.subset hzero)) hdot
  · intro hplain e _ hdot
    by_cases hdisputed : ∃ entry ∈ mimeTable file.text, e ∈ disputed entry.tokens
    · obtain ⟨entry, hentry, he⟩ := hdisputed
      exact hplain.agree entry hentry e he hdot
    · refine MimeText.firstType_congr fun entry hentry => ?_
      exact MimeText.mem_loadedTokens_iff (hplain.legible entry hentry) hdot
        fun he => hdisputed ⟨entry, hentry, he⟩

/-- A table whose only line lists an extension with plus signs. -/
def cppTypes : MimeText where
  text := ascii "text/x-c++src c++ cpp\n"
  lines := by
    intro line hline hentry
    have hlines : (ascii "text/x-c++src c++ cpp\n").splitOn (byte '\n') =
        [ascii "text/x-c++src c++ cpp", []] := by decide +kernel
    rw [hlines] at hline
    rcases List.mem_pair.mp hline with rfl | rfl
    · exact ⟨by decide +kernel, by decide +kernel, by decide +kernel, by decide +kernel⟩
    · exact absurd hentry (by decide)

/-- The line lists `c++`, but `a.c++` gets the fallback. -/
theorem not_mimeRight_cpp :
    (mimeTable cppTypes.text).map MimeEntry.tokens = [[ascii "c++", ascii "cpp"]] ∧
      mimeListGetType (mimeLoad [] (some cppTypes.text)).1 (fun _ => none) (ascii "a.c++")
        (ascii "text/plain") = ascii "text/plain" ∧
      ¬ cppTypes.Right := by
  have hgets : mimeListGetType (mimeLoad [] (some cppTypes.text)).1 (fun _ => none) (ascii "a.c++")
      (ascii "text/plain") = ascii "text/plain" := by decide +kernel
  refine ⟨by decide +kernel, hgets, fun hright => ?_⟩
  have hsays := hright [] (fun _ => none) (ascii "a") (ascii "c++") (ascii "text/plain")
    (by decide) (by decide) (by decide)
  exact absurd (hgets.symm.trans hsays) (by decide +kernel)

end Khttp
