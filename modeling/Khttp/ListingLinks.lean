import Khttp.Validation

/-!
# The links of a listing

`server_generate_directory_index` makes the link of an entry from its path by replacing the served
directory with nothing, wherever its text occurs, and by dropping one more byte. A link is printed
as it is, and a request for it is cut off at the first byte that the URL parser does not take for a
part of the path.
-/

namespace Khttp

open Lib

section StrReplace

variable {needle hay : Bytes}

/-- `strstr` finds a text where one starts with it. -/
theorem strstr_of_prefix (hneedle : needle ≠ []) (h : needle <+: hay) :
    strstr needle hay = some 0 := by
  cases hay with
  | nil => exact absurd (List.prefix_nil.mp h) hneedle
  | cons c rest => rw [strstr, if_pos (List.isPrefixOf_iff_prefix.mpr h)]

/-- `strstr` finds a text nowhere exactly when it does not occur. -/
theorem strstr_eq_none_iff (hneedle : needle ≠ []) :
    strstr needle hay = none ↔ ¬needle <:+: hay := by
  induction hay with
  | nil => simp [strstr, hneedle]
  | cons c rest ih =>
    rw [List.infix_cons_iff, not_or, ← ih, strstr]
    by_cases hstarts : needle <+: c :: rest
    · simp [hstarts]
    · simp [hstarts]

/-- Where `strstr` finds a text there is room for it. -/
theorem add_length_le_of_strstr {pos : ℕ} (h : strstr needle hay = some pos) :
    pos + needle.length ≤ hay.length := by
  induction hay generalizing pos with
  | nil =>
    obtain ⟨hneedle, hpos⟩ : needle = [] ∧ 0 = pos := by simpa [strstr] using h
    simp [hneedle, ← hpos]
  | cons c rest ih =>
    rw [strstr] at h
    split at h
    · next hstarts =>
      obtain rfl := Option.some.inj h
      have hlength := (List.isPrefixOf_iff_prefix.mp hstarts).length_le
      omega
    · obtain ⟨before, hbefore, rfl⟩ := Option.map_eq_some_iff.mp h
      have hlength := ih hbefore
      rw [List.length_cons]
      omega

/-- A text that is replaced with nothing makes the whole shorter by its length. -/
theorem length_cut_le {pos : ℕ} (h : strstr needle hay = some pos) :
    (hay.take (pos % 2 ^ 32) ++ [] ++ hay.drop (pos + needle.length)).length + needle.length ≤
      hay.length := by
  have hroom := add_length_le_of_strstr h
  have hmod := Nat.mod_le pos (2 ^ 32)
  simp only [List.append_nil, List.length_append, List.length_take, List.length_drop]
  omega

/-- Replacing with nothing makes a text no longer. -/
theorem length_strReplaceLoop_le (rounds : ℕ) :
    (strReplaceLoop needle [] rounds hay).length ≤ hay.length := by
  induction rounds generalizing hay with
  | zero => exact le_refl _
  | succ rounds ih =>
    rw [strReplaceLoop]
    cases hfound : strstr needle hay with
    | none => exact le_refl _
    | some pos =>
      have hcut := length_cut_le hfound
      exact ih.trans (by omega)

/-- A text in front of another is cut off first. -/
theorem strReplace_append (hneedle : needle ≠ []) (hzero : 0 ∉ needle ++ hay) :
    strReplace (needle ++ hay) needle [] = strReplaceLoop needle [] 999 hay := by
  have hzero' : 0 ∉ needle := fun h => hzero (List.mem_append_left _ h)
  have hpos := List.length_pos_of_ne_nil hneedle
  unfold strReplace
  rw [cstr_of_zero_notMem hzero, cstr_of_zero_notMem hzero', if_neg]
  · rw [strReplaceLoop, strstr_of_prefix hneedle (List.prefix_append _ _)]
    simp [cstr]
  · rw [List.length_append]
    omega

/-- A text that does not occur leaves the other as it is. -/
theorem strReplaceLoop_of_absent (hneedle : needle ≠ []) (habsent : ¬needle <:+: hay)
    (rounds : ℕ) : strReplaceLoop needle [] rounds hay = hay := by
  cases rounds with
  | zero => rfl
  | succ rounds => rw [strReplaceLoop, (strstr_eq_none_iff hneedle).mpr habsent]

/-- A text that occurs leaves the other shorter. -/
theorem length_strReplaceLoop_lt (hneedle : needle ≠ []) (hoccurs : needle <:+: hay)
    (rounds : ℕ) : (strReplaceLoop needle [] (rounds + 1) hay).length < hay.length := by
  obtain ⟨pos, hfound⟩ : ∃ pos, strstr needle hay = some pos := by
    apply Option.ne_none_iff_exists'.mp
    exact fun hnone => (strstr_eq_none_iff hneedle).mp hnone hoccurs
  have hcut := length_cut_le hfound
  have hpos := List.length_pos_of_ne_nil hneedle
  have hrest := @length_strReplaceLoop_le needle
    (hay.take (pos % 2 ^ 32) ++ [] ++ hay.drop (pos + needle.length)) rounds
  simp only [strReplaceLoop, hfound]
  omega

end StrReplace

section UrlPath

variable {v : UrlParse} {text : Bytes}

/-- The states of the URL parser after the path. -/
def PastPath (s : UrlState) : Prop :=
  s = .queryStringStart ∨ s = .queryString ∨ s = .fragmentStart ∨ s = .fragment

/-- A byte of the path goes on with it. -/
theorem parseUrlChar_path {ch : UInt8} (h : isUrlChar ch = true) :
    parseUrlChar .path ch = .path := by
  have hspace : ch ∉ ascii " \r\n\t\x0c" := by
    intro hmem
    have hnone : ∀ c ∈ ascii " \r\n\t\x0c", isUrlChar c = false := by
      decide +kernel
    simp [hnone ch hmem] at h
  simp [parseUrlChar, parsePartChar, hspace, h]

/-- Any other byte ends the path. -/
theorem parseUrlChar_path_end {ch : UInt8} (h : isUrlChar ch = false) :
    parseUrlChar .path ch = .dead ∨ PastPath (parseUrlChar .path ch) := by
  unfold parseUrlChar parsePartChar PastPath
  split
  · exact Or.inl rfl
  · simp only [h, Bool.false_eq_true, if_false]
    split_ifs <;> simp

/-- What comes after the path does not lead back to it. -/
theorem pastPath_parseUrlChar {s : UrlState} (h : PastPath s) (ch : UInt8) :
    parseUrlChar s ch = .dead ∨ PastPath (parseUrlChar s ch) := by
  unfold parseUrlChar parsePartChar PastPath
  split
  · exact Or.inl rfl
  · rcases h with rfl | rfl | rfl | rfl <;> dsimp only <;> split_ifs <;> simp

/-- A byte is counted in the state it leads to. -/
theorem count_s (s : UrlState) (p : ℕ) : (v.count s p).s = s := by
  unfold UrlParse.count
  dsimp only
  split
  · rfl
  · split <;> rfl

/-- A byte after the path is not counted to it. -/
theorem count_pastPath {s : UrlState} (h : PastPath s) (p : ℕ) :
    (v.count s p).u.fieldData .path = v.u.fieldData .path := by
  unfold UrlParse.count
  rcases h with rfl | rfl | rfl | rfl <;> dsimp only [urlField]
  all_goals
    split <;> simp [HttpParserUrl.grow, HttpParserUrl.startField, HttpParserUrl.setField]

/-- A byte of the path is counted to it. -/
theorem count_path {n : ℕ} (hold : v.oldUf = some .path)
    (hfield : v.u.fieldData .path = ⟨true, 0, n.toUInt16⟩) (p : ℕ) :
    (v.count .path p).oldUf = some .path ∧
      (v.count .path p).u.fieldData .path = ⟨true, 0, (n + 1).toUInt16⟩ := by
  unfold UrlParse.count
  dsimp only [urlField]
  rw [if_pos hold]
  refine ⟨hold, ?_⟩
  simp [HttpParserUrl.grow, HttpParserUrl.setField, hfield]

/-- One round of the loop over a URL: it ends, or goes on from the counted byte. -/
theorem parseUrlLoop_cons (p : ℕ) (ch : UInt8) :
    parseUrlLoop v p (ch :: text) =
      if parseUrlChar v.s ch = .dead then { v with s := .dead }
      else parseUrlLoop (v.count (parseUrlChar v.s ch) p) (p + 1) text := by
  rw [parseUrlLoop]
  cases parseUrlChar v.s ch <;> simp

/-- The path is left as it is by all that comes after it. -/
theorem parseUrlLoop_pastPath (h : PastPath v.s) (p : ℕ) :
    (parseUrlLoop v p text).u.fieldData .path = v.u.fieldData .path := by
  induction text generalizing v p with
  | nil => rfl
  | cons ch rest ih =>
    rw [parseUrlLoop_cons]
    split
    · rfl
    · next hdead =>
      have hpast := (pastPath_parseUrlChar h ch).resolve_left hdead
      rw [ih (by rwa [count_s]), count_pastPath hpast]

/-- The path takes in the bytes up to the first one that is not for it. -/
theorem parseUrlLoop_path {n : ℕ} (hs : v.s = .path) (hold : v.oldUf = some .path)
    (hfield : v.u.fieldData .path = ⟨true, 0, n.toUInt16⟩) (p : ℕ) :
    (parseUrlLoop v p text).u.fieldData .path =
      ⟨true, 0, (n + (text.takeWhile isUrlChar).length).toUInt16⟩ := by
  induction text generalizing v n p with
  | nil => exact hfield
  | cons ch rest ih =>
    rw [parseUrlLoop_cons, hs]
    by_cases hch : isUrlChar ch = true
    · obtain ⟨hold', hfield'⟩ := count_path hold hfield p
      rw [parseUrlChar_path hch, if_neg (by simp), ih (count_s _ p) hold' hfield',
        List.takeWhile_cons_of_pos hch, List.length_cons]
      congr 2
      omega
    · rw [Bool.not_eq_true] at hch
      rw [List.takeWhile_cons_of_neg (by simp [hch])]
      rcases parseUrlChar_path_end hch with hdead | hpast
      · rw [if_pos hdead]
        exact hfield
      · have hlive : parseUrlChar .path ch ≠ .dead := by
          rcases hpast with hs | hs | hs | hs <;> simp [hs]
        rw [if_neg hlive, parseUrlLoop_pastPath (by rwa [count_s]), count_pastPath hpast]
        exact hfield

/-- The loop over the host leaves the path as it is. -/
theorem httpParseHostLoop_path (u : HttpParserUrl) (s : HttpHostState) (p : ℕ) (host : Bytes) :
    (httpParseHostLoop u s p host).2.fieldData .path = u.fieldData .path := by
  have hfield (u : HttpParserUrl) (s newS : HttpHostState) (p : ℕ) :
      (httpParseHostField u s newS p).fieldData .path = u.fieldData .path := by
    unfold httpParseHostField HttpParserUrl.grow HttpParserUrl.startField HttpParserUrl.setField
    split <;> first | rfl | (split <;> simp)
  induction host generalizing u s p with
  | nil => rfl
  | cons ch rest ih =>
    rw [httpParseHostLoop]
    split
    · rfl
    · rw [ih, hfield]

/-- The check of the host leaves the path as it is. -/
theorem httpParseHost_path (buf : Bytes) (u : HttpParserUrl) (foundAt : Bool) :
    (httpParseHost buf u foundAt).2.fieldData .path = u.fieldData .path := by
  have hloop := httpParseHostLoop_path (u.setField .host { u.fieldData .host with len := 0 })
    (if foundAt then .userinfoStart else .hostStart) (u.fieldData .host).off.toNat
    ((buf.drop (u.fieldData .host).off.toNat).take (u.fieldData .host).len.toNat)
  have hset : (u.setField .host { u.fieldData .host with len := 0 }).fieldData .path =
      u.fieldData .path := rfl
  rw [hset] at hloop
  unfold httpParseHost
  dsimp only
  split <;> simp_all

/-- The check at the end leaves the fields as they are. -/
theorem httpParserCheckUrl_fieldData (buf : Bytes) (isConnect : Bool) (u : HttpParserUrl) :
    (httpParserCheckUrl buf isConnect u).2.fieldData = u.fieldData := by
  unfold httpParserCheckUrl
  dsimp only
  split_ifs <;> rfl

/-- The path is the one that the loop over the URL ends with. -/
theorem httpParserParseUrl_path (buf : Bytes) :
    (httpParserParseUrl buf false).2.fieldData .path =
      (parseUrlLoop ⟨.spacesBeforeUrl, none, false, .new⟩ 0 buf).u.fieldData .path := by
  unfold httpParserParseUrl
  simp only [Bool.false_eq_true, if_false]
  split
  · rfl
  · split
    · split
      · exact httpParseHost_path _ _ _
      · rw [httpParserCheckUrl_fieldData]
        exact httpParseHost_path _ _ _
    · rw [httpParserCheckUrl_fieldData]

/-- The parser finds the path of a URI that starts with a slash, as far as 16 bits count it. -/
theorem fieldData_slash (text : Bytes) :
    (httpParserParseUrl (byte '/' :: text) false).2.fieldData .path =
      ⟨true, 0, (1 + (text.takeWhile isUrlChar).length).toUInt16⟩ := by
  have hfirst : parseUrlChar .spacesBeforeUrl (byte '/') = .path := by decide
  rw [httpParserParseUrl_path, parseUrlLoop_cons, hfirst, if_neg (by simp)]
  apply parseUrlLoop_path
  · exact count_s _ _
  · rfl
  · rfl

/-- The path of a URI that starts with a slash. -/
theorem uriPath_slash (hzero : 0 ∉ text) :
    HasPath (byte '/' :: text) ∧ uriPath (byte '/' :: text) =
      (byte '/' :: text).take ((1 + (text.takeWhile isUrlChar).length) % 2 ^ 16) := by
  have hcstr : cstr (byte '/' :: text) = byte '/' :: text := by
    apply cstr_of_zero_notMem
    rw [List.mem_cons, not_or]
    exact ⟨by decide, hzero⟩
  unfold HasPath uriPath
  rw [hcstr, fieldData_slash]
  refine ⟨rfl, ?_⟩
  simp

/-- A URI that starts with a slash is its own path exactly when all its bytes are for a path, and
16 bits count them. -/
theorem uriPath_slash_eq_iff (hzero : 0 ∉ text) :
    uriPath (byte '/' :: text) = byte '/' :: text ↔
      (∀ c ∈ text, isUrlChar c = true) ∧ text.length + 1 < 2 ^ 16 := by
  rw [(uriPath_slash hzero).2, List.take_eq_self_iff, List.length_cons]
  have hstarts := List.takeWhile_prefix (l := text) isUrlChar
  have hle := hstarts.length_le
  rw [← List.takeWhile_eq_self_iff]
  constructor
  · intro h
    have hmod := Nat.mod_le (1 + (text.takeWhile isUrlChar).length) (2 ^ 16)
    refine ⟨hstarts.eq_of_length (by omega), by omega⟩
  · rintro ⟨hself, hshort⟩
    rw [hself, Nat.mod_eq_of_lt (by omega)]
    omega

end UrlPath

/-- The path of an entry relative to a directory: the names on the way down from there, and the
entry. -/
def relativePath (below : Place) (entry : Bytes) : Bytes :=
  below.flatMap (fun n => n.text ++ [byte '/']) ++ cstr entry

/-- A request for a URI makes the server look up a path: whatever host that serves the directory
it is for. -/
def LooksUp (dir : Place) (uri path : Bytes) : Prop :=
  ∀ config request line hconfig, requestHost config request line = some (.ok hconfig) →
    hconfig.serveDir = some (render dir) → line.method ∈ [.methodGet, .methodHead, .methodPost] →
    line.uri = some uri →
    requestTarget config request line = some (.ok (hconfig, render dir, path))

/-- The link of an entry is its path relative to the served directory, and a request for it looks
up the entry. -/
structure LinkSound (dir below : Place) (entry : Bytes) : Prop where
  /-- The link. -/
  href : listedUri (render dir) (entryPath (render (dir ++ below)) entry) =
    some (relativePath below entry)
  /-- The request. -/
  request : LooksUp dir (byte '/' :: relativePath below entry)
    (entryPath (render (dir ++ below)) entry)

/-- The text of the served directory does not occur again behind it, and the URL parser takes all
of the relative path for a path. -/
structure LinkFits (dir below : Place) (entry : Bytes) : Prop where
  /-- The text of the directory occurs once. -/
  once : ¬render dir <:+: byte '/' :: relativePath below entry
  /-- All bytes are for a path. -/
  bytes : ∀ c ∈ relativePath below entry, isUrlChar c = true
  /-- The length is counted in 16 bits. -/
  short : (relativePath below entry).length + 1 < 2 ^ 16

variable {dir below : Place} {entry uri path : Bytes}

/-- A relative path has no zero byte. -/
theorem zero_notMem_relativePath (below : Place) (entry : Bytes) :
    0 ∉ relativePath below entry := by
  rw [relativePath, List.mem_append, not_or]
  refine ⟨?_, zero_notMem_cstr entry⟩
  intro hmem
  obtain ⟨n, _, hn⟩ := List.mem_flatMap.mp hmem
  rcases List.mem_append.mp hn with htext | hslash
  · exact n.isName.2.2.1 htext
  · exact absurd (List.mem_singleton.mp hslash) (by decide)

/-- The names of a path and an entry, each with a slash before it, are a slash and the relative
path. -/
theorem spell_append_entry (below : Place) (entry : Bytes) :
    spell below ++ byte '/' :: cstr entry = byte '/' :: relativePath below entry := by
  have hsep : pathSyntax.sep = byte '/' := rfl
  induction below with
  | nil => rfl
  | cons n below ih =>
    have hspell : spell (n :: below) = byte '/' :: (n.text ++ spell below) := by
      simp [spell, hsep]
    have hrelative : relativePath (n :: below) entry =
        n.text ++ byte '/' :: relativePath below entry := by
      simp [relativePath]
    rw [hspell, hrelative, ← ih]
    simp

/-- The path of an entry is that of the served directory, a slash and the relative path. -/
theorem entryPath_append (h : dir ≠ [] ∨ below = []) :
    entryPath (render (dir ++ below)) entry =
      render dir ++ byte '/' :: relativePath below entry := by
  have hpath (p : Place) : entryPath (render p) entry = render p ++ byte '/' :: cstr entry := by
    rw [entryPath, cstr_render, List.append_assoc]
    rfl
  rw [hpath]
  rcases h with hdir | rfl
  · obtain ⟨n, dir, rfl⟩ := List.exists_cons_of_ne_nil hdir
    have hsplit : render (n :: dir ++ below) = render (n :: dir) ++ spell below := by
      simp [render, spell]
    rw [hsplit, List.append_assoc, spell_append_entry]
  · rw [List.append_nil]
    rfl

/-- In the root the slash of the root is the one in front of the relative path. -/
theorem entryPath_root (hbelow : below ≠ []) :
    entryPath (render ([] ++ below)) entry =
      render ([] : Place) ++ relativePath below entry := by
  obtain ⟨n, below, rfl⟩ := List.exists_cons_of_ne_nil hbelow
  have hroot : render ([] : Place) = [byte '/'] := rfl
  rw [hroot, List.nil_append, entryPath, cstr_render, List.append_assoc, render]
  exact spell_append_entry (n :: below) entry

/-- The text of a place is not empty. -/
theorem render_ne_nil (p : Place) : render p ≠ [] := by
  cases p <;> simp [render, spell]

/-- A link is what the loop of `str_replace` leaves behind the served directory, without its first
byte. -/
theorem listedUri_append {rest : Bytes} (hzero : 0 ∉ rest) :
    listedUri (render dir) (render dir ++ rest) = some uri ↔
      ∃ c, strReplaceLoop (render dir) [] 999 rest = c :: uri := by
  have hzero' : 0 ∉ render dir ++ rest := by
    rw [List.mem_append, not_or]
    exact ⟨zero_notMem_render dir, hzero⟩
  unfold listedUri
  rw [strReplace_append (render_ne_nil dir) hzero']
  cases strReplaceLoop (render dir) [] 999 rest <;> simp

/-- The link is the relative path exactly when the text of the served directory does not occur
behind it. -/
theorem href_iff :
    listedUri (render dir) (entryPath (render (dir ++ below)) entry) =
        some (relativePath below entry) ↔
      ¬render dir <:+: byte '/' :: relativePath below entry := by
  have hzero := zero_notMem_relativePath below entry
  by_cases hroot : dir ≠ [] ∨ below = []
  · have hzero' : 0 ∉ byte '/' :: relativePath below entry := by
      rw [List.mem_cons, not_or]
      exact ⟨by decide, hzero⟩
    rw [entryPath_append hroot, listedUri_append hzero']
    constructor
    · rintro ⟨c, hloop⟩ hoccurs
      have hlength := length_strReplaceLoop_lt (render_ne_nil dir) hoccurs 998
      rw [hloop, List.length_cons, List.length_cons] at hlength
      omega
    · intro habsent
      exact ⟨byte '/', strReplaceLoop_of_absent (render_ne_nil dir) habsent 999⟩
  · -- the slashes of the path are cut out one by one, and the first name loses a byte
    obtain ⟨rfl, hbelow⟩ : dir = [] ∧ below ≠ [] := by simpa using hroot
    rw [entryPath_root hbelow, listedUri_append hzero]
    have hoccurs : render ([] : Place) <:+: byte '/' :: relativePath below entry :=
      ⟨[], relativePath below entry, rfl⟩
    refine iff_of_false ?_ (not_not.mpr hoccurs)
    rintro ⟨c, hloop⟩
    have hlength := @length_strReplaceLoop_le (render ([] : Place)) (relativePath below entry) 999
    rw [hloop, List.length_cons] at hlength
    omega

/-- What a request for a path below the served directory looks up. -/
theorem requestTarget_of_uri {config : ConfigServer} {request : HttpRequest}
    {line : HttpRequestLine} {hconfig : ConfigHost}
    (hhost : requestHost config request line = some (.ok hconfig))
    (hdir : hconfig.serveDir = some (render dir))
    (hmethod : line.method ∈ [.methodGet, .methodHead, .methodPost]) (huri : line.uri = some uri)
    (hpath : HasPath uri) :
    requestTarget config request line =
      some (.ok (hconfig, render dir, render dir ++ uriPath uri)) := by
  have hrequest : requestPath line = some (.ok (uriPath uri)) :=
    requestPath_eq_ok_iff.mpr ⟨hmethod, uri, huri, hpath, rfl⟩
  simp only [requestTarget, hhost, Option.bind_some, hrequest, hdir, Option.map_some, cstr_render]

/-- A host that serves a directory and answers for every name. -/
def hostServing (dir : Place) : ConfigHost :=
  { configHostNew with defaultHost := true, serveDir := some (render dir) }

/-- A request that looks up a path of the served directory looks up the path of its URI. -/
theorem looksUp_iff (hpath : HasPath uri) :
    LooksUp dir uri (render dir ++ path) ↔ uriPath uri = path := by
  constructor
  · intro hlooks
    let config := configServerAddhost (configServerNew []) (hostServing dir)
    let line : HttpRequestLine := ⟨.methodGet, none, some uri, .http10⟩
    have hhost : requestHost config httpRequestNew line = some (.ok (hostServing dir)) := rfl
    have htarget := hlooks config httpRequestNew line _ hhost rfl (by simp [line]) rfl
    rw [requestTarget_of_uri hhost rfl (by simp [line]) rfl hpath] at htarget
    simpa using htarget
  · rintro rfl config request line hconfig hhost hdir hmethod huri
    exact requestTarget_of_uri hhost hdir hmethod huri hpath

/-- The link of an entry is sound exactly when it fits. -/
theorem linkSound_iff (dir below : Place) (entry : Bytes) :
    LinkSound dir below entry ↔ LinkFits dir below entry := by
  have hzero := zero_notMem_relativePath below entry
  have hpath := (uriPath_slash hzero).1
  have hroot (honce : ¬render dir <:+: byte '/' :: relativePath below entry) :
      dir ≠ [] ∨ below = [] := by
    refine Or.inl ?_
    rintro rfl
    exact honce ⟨[], relativePath below entry, rfl⟩
  constructor
  · intro h
    have honce := href_iff.mp h.href
    have hlooks := h.request
    rw [entryPath_append (hroot honce), looksUp_iff hpath, uriPath_slash_eq_iff hzero] at hlooks
    exact ⟨honce, hlooks.1, hlooks.2⟩
  · intro h
    refine ⟨href_iff.mpr h.once, ?_⟩
    rw [entryPath_append (hroot h.once), looksUp_iff hpath, uriPath_slash_eq_iff hzero]
    exact ⟨h.bytes, h.short⟩

/-- Below a directory of the same name the link misses that directory. -/
theorem not_linkSound_nested :
    ¬LinkSound [⟨ascii "a", by decide⟩] [⟨ascii "a", by decide⟩] (ascii "b") := by
  intro h
  have hhref := h.href
  revert hhref
  decide +kernel

end Khttp
