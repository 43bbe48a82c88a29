import Khttp.Config

/-!
# The configuration file

`ini.c`, built without multi-line values and byte order marks, and `main` up to the creation
of the server state: the lines of the file, the calls of the callback that they lead to and the
number of the first line with an error.
-/

namespace Khttp

/-- `INI_MAX_LINE`. -/
def iniMaxLine : ℕ := 200

/-- `MAX_SECTION`. -/
def maxSection : ℕ := 50

/-- What the calls of `fgets` read, where the buffer holds the start of a line and has room for
some bytes more. -/
def fgetsLines : ℕ → Bytes → Bytes → List Bytes
  | _, line, [] => if line = [] then [] else [line]
  | room, line, c :: rest =>
    if c = byte '\n' ∨ room ≤ 1 then (line ++ [c]) :: fgetsLines (iniMaxLine - 1) [] rest
    else fgetsLines (room - 1) (line ++ [c]) rest

/-- The lines of a file as `ini_parse_file` reads them. -/
def iniLines (text : Bytes) : List Bytes := fgetsLines (iniMaxLine - 1) [] text

/-- `rstrip`. -/
def rstrip (s : Bytes) : Bytes := (s.reverse.dropWhile isspace).reverse

/-- `lskip`. -/
def lskip (s : Bytes) : Bytes := s.dropWhile isspace

/-- `find_char_or_comment`: the text before the place that it returns and the text from there
on. The flag says whether a white space came before. -/
def findCharOrComment (c : UInt8) : Bool → Bytes → Bytes × Bytes
  | _, [] => ([], [])
  | wasWhitespace, b :: s =>
    if b = c ∨ (wasWhitespace ∧ b = byte ';') then ([], b :: s)
    else
      let (before, found) := findCharOrComment c (isspace b) s
      (b :: before, found)

/-- What a line of the file is. -/
inductive IniLine where
  /-- A blank line or a comment. -/
  | ignored
  /-- The start of a section. -/
  | newSection (name : Bytes)
  /-- A setting. -/
  | setting (name value : Bytes)
  /-- A line with an error. -/
  | malformed
  deriving DecidableEq, Repr

/-- The branch of `ini_parse_file` for a name and a value. -/
def iniSetting (start : Bytes) : IniLine :=
  let found := findCharOrComment (byte '=') false start
  let (before, found) :=
    if found.2.head? = some (byte '=') then found
    else findCharOrComment (byte ':') false start
  match found with
  | [] => .malformed
  | c :: rest =>
    if c = byte '=' ∨ c = byte ':' then
      .setting (rstrip before) (rstrip (findCharOrComment 0 false (lskip rest)).1)
    else .malformed

/-- The branches of `ini_parse_file` for a line. -/
def iniLine (line : Bytes) : IniLine :=
  match lskip (rstrip (cstr line)) with
  | [] => .ignored
  | c :: rest =>
    if c = byte ';' ∨ c = byte '#' then .ignored
    else if c = byte '[' then
      let (name, found) := findCharOrComment (byte ']') false rest
      if found.head? = some (byte ']') then .newSection (name.take (maxSection - 1)) else .malformed
    else iniSetting (c :: rest)

/-- The variables of `ini_parse_file` that live over a line. -/
structure IniState (σ : Type*) where
  /-- What the callback is given and changes. -/
  user : σ
  /-- The section. -/
  sectionName : Bytes
  /-- The number of the line. -/
  lineno : ℕ
  /-- The number of the first line with an error, zero without one. -/
  error : ℕ

namespace IniState

variable {σ : Type*}

/-- A line with an error. -/
def fail (s : IniState σ) : IniState σ :=
  { s with error := if s.error = 0 then s.lineno else s.error }

/-- A call of the callback, which reports an error by zero. -/
def call (handler : σ → IniCall → σ × ℤ) (s : IniState σ) (setting : Option (Bytes × Bytes)) :
    IniState σ :=
  let (user, result) := handler s.user ⟨s.sectionName, setting⟩
  let s := { s with user }
  if result = 0 then s.fail else s

/-- The loop of `ini_parse_file`. Counting the lines beyond the range of `int` has no result. -/
def parseLine (handler : σ → IniCall → σ × ℤ) (s : IniState σ) (line : Bytes) :
    Option (IniState σ) :=
  if s.lineno + 1 < 2 ^ 31 then
    let s := { s with lineno := s.lineno + 1 }
    match iniLine line with
    | .ignored => some s
    | .newSection name => some (({ s with sectionName := name } : IniState σ).call handler none)
    | .setting name value => some (s.call handler (some (name, value)))
    | .malformed => some s.fail
  else none

end IniState

/-- `ini_parse_file`, with what the callback leaves. -/
def iniParseFile {σ : Type*} (handler : σ → IniCall → σ × ℤ) (user : σ) (text : Bytes) :
    Option (σ × ℤ) :=
  ((iniLines text).foldlM (IniState.parseLine handler) ⟨user, [], 0, 0⟩).map fun s =>
    (s.user, s.error)

/-- `ini_parse` of a file, `none` where it cannot be opened. -/
def iniParse {σ : Type*} (handler : σ → IniCall → σ × ℤ) (user : σ) : Option Bytes → Option (σ × ℤ)
  | none => some (user, -1)
  | some text => iniParseFile handler user text

/-- `main` up to `server_status_new`: the configuration it goes on with, `none` inside where it
gives up. -/
def mainConfig (fs : FileSystem) (machine : Bytes) (file : Option Bytes) :
    Option (Option ConfigServer) :=
  (iniParse (configReadIniCb fs) (configServerNew machine) file).map fun (config, result) =>
    if result < 0 then none else some config

/-- The calls that lines lead to, in a section. -/
def iniCalls : Bytes → List Bytes → List IniCall
  | _, [] => []
  | sectionName, line :: lines =>
    match iniLine line with
    | .ignored | .malformed => iniCalls sectionName lines
    | .newSection name => ⟨name, none⟩ :: iniCalls name lines
    | .setting name value => ⟨sectionName, some (name, value)⟩ :: iniCalls sectionName lines

/-- The calls that a file leads to. -/
def fileCalls (text : Bytes) : List IniCall := iniCalls [] (iniLines text)

/-- A line is counted, and its call made, while the number fits. -/
theorem IniState.parseLine_iff {σ : Type*} {handler : σ → IniCall → σ × ℤ} {s t : IniState σ}
    {line : Bytes} (h : s.parseLine handler line = some t) :
    s.lineno + 1 < 2 ^ 31 ∧ t.lineno = s.lineno + 1 ∧
      ∀ lines, (iniCalls s.sectionName (line :: lines)).foldl
          (fun user call => (handler user call).1) s.user =
        (iniCalls t.sectionName lines).foldl (fun user call => (handler user call).1) t.user := by
  obtain ⟨hlt, h⟩ := Option.ite_none_right_eq_some.mp h
  refine ⟨hlt, ?_⟩
  have hcall {s : IniState σ} {setting : Option (Bytes × Bytes)} :
      (s.call handler setting).lineno = s.lineno ∧
        (s.call handler setting).sectionName = s.sectionName ∧
        (s.call handler setting).user = (handler s.user ⟨s.sectionName, setting⟩).1 := by
    unfold IniState.call
    dsimp only
    split <;> exact ⟨rfl, rfl, rfl⟩
  dsimp only at h
  split at h
  · next hline =>
    obtain rfl := Option.some.inj h
    exact ⟨rfl, fun lines => by rw [iniCalls, hline]⟩
  · next name hline =>
    obtain rfl := Option.some.inj h
    refine ⟨hcall.1, fun lines => ?_⟩
    rw [iniCalls, hline, hcall.2.1, hcall.2.2]
    rfl
  · next name value hline =>
    obtain rfl := Option.some.inj h
    refine ⟨hcall.1, fun lines => ?_⟩
    rw [iniCalls, hline, hcall.2.1, hcall.2.2]
    rfl
  · next hline =>
    obtain rfl := Option.some.inj h
    exact ⟨rfl, fun lines => by rw [iniCalls, hline]; rfl⟩

/-- **Run lemma.** The lines of a file make their calls one after the other, whatever these
return. -/
theorem foldlM_parseLine {σ : Type*} {handler : σ → IniCall → σ × ℤ} {lines : List Bytes}
    {s t : IniState σ} (h : lines.foldlM (IniState.parseLine handler) s = some t) :
    t.lineno = s.lineno + lines.length ∧ (lines ≠ [] → t.lineno < 2 ^ 31) ∧
      t.user = (iniCalls s.sectionName lines).foldl
        (fun user call => (handler user call).1) s.user := by
  induction lines generalizing s with
  | nil =>
    obtain rfl := Option.some.inj h
    exact ⟨rfl, by simp, rfl⟩
  | cons line lines ih =>
    rw [List.foldlM_cons, Option.bind_eq_bind, Option.bind_eq_some_iff] at h
    obtain ⟨u, hu, h⟩ := h
    obtain ⟨hlt, hlineno, hcalls⟩ := IniState.parseLine_iff hu
    obtain ⟨hlength, hsmall, huser⟩ := ih h
    refine ⟨by rw [hlength, hlineno, List.length_cons]; omega, fun _ => ?_, ?_⟩
    · cases lines with
      | nil =>
        rw [List.length_nil] at hlength
        omega
      | cons next lines => exact hsmall (by simp)
    · rw [huser, hcalls]

/-- Lines whose number fits can all be read. -/
theorem exists_foldlM_parseLine {σ : Type*} (handler : σ → IniCall → σ × ℤ) {lines : List Bytes}
    {s : IniState σ} (hlines : s.lineno + lines.length < 2 ^ 31) :
    ∃ t, lines.foldlM (IniState.parseLine handler) s = some t := by
  induction lines generalizing s with
  | nil => exact ⟨s, rfl⟩
  | cons line lines ih =>
    rw [List.length_cons] at hlines
    have hline : ∃ u, s.parseLine handler line = some u := by
      rw [IniState.parseLine, if_pos (by omega)]
      dsimp only
      split <;> exact ⟨_, rfl⟩
    obtain ⟨u, hu⟩ := hline
    have hlineno := (IniState.parseLine_iff hu).2.1
    obtain ⟨t, ht⟩ := ih (s := u) (by omega)
    refine ⟨t, ?_⟩
    rw [List.foldlM_cons, hu]
    exact ht

/-- `main` goes on with every file that it can open and whose lines it can count. -/
theorem mainConfig_eq (fs : FileSystem) (machine text : Bytes) :
    mainConfig fs machine (some text) =
      if (iniLines text).length < 2 ^ 31 then
        some (some (configReadIni fs (configServerNew machine) (fileCalls text)))
      else none := by
  let start : IniState ConfigServer := ⟨configServerNew machine, [], 0, 0⟩
  have hmain : mainConfig fs machine (some text) =
      ((iniLines text).foldlM (IniState.parseLine (configReadIniCb fs)) start).map fun s =>
        some s.user := by
    rw [mainConfig, iniParse, iniParseFile, Option.map_map]
    congr 1
  rw [hmain]
  split
  · next hlt =>
    have hcount : start.lineno + (iniLines text).length < 2 ^ 31 := by
      simp only [start]
      omega
    obtain ⟨t, ht⟩ := exists_foldlM_parseLine (configReadIniCb fs) hcount
    rw [ht, Option.map_some, (foldlM_parseLine ht).2.2]
    rfl
  · next hge =>
    cases hread : (iniLines text).foldlM (IniState.parseLine (configReadIniCb fs)) start with
    | none => rfl
    | some t =>
      obtain ⟨hlength, hsmall, _⟩ := foldlM_parseLine hread
      have hlines : iniLines text ≠ [] := by
        intro hnil
        simp [hnil] at hge
      have hlt := hsmall hlines
      simp only [start] at hlength
      omega

end Khttp
