import Khttp.HttpServer
import Khttp.Lib.Replacement

/-!
# Filling in a page

`str_replace` searches the whole text again after each replacement, up to a thousand times. The
pages of the server are templates with several placeholders, for which it is called one after the
other. They hold what was filled in as it is exactly where no search comes upon it.
-/

namespace Khttp

open Lib

/-- What a call of `str_replace` looks for, and what it puts there. -/
structure Placeholder where
  /-- The text that is searched for. -/
  search : Bytes
  /-- The text that replaces it. -/
  replacement : Bytes
  /-- Something is searched for. -/
  search_ne : search ≠ []
  /-- The text that is searched for is a C string. -/
  search_text : 0 ∉ search
  /-- The text that replaces it is a C string. -/
  replacement_text : 0 ∉ replacement

/-- A page whose text came from the template or was filled in. -/
abbrev Page := List (Piece UInt8)

namespace Placeholder

/-- The page with one more occurrence in the template filled in. -/
def next (p : Placeholder) : Page → Page := fillNext p.search p.replacement

/-- The page with all occurrences in the template filled in. -/
def all (p : Placeholder) : Page → Page := fillAll p.search p.replacement

/-- `str_replace` fills in a page: it returns the page with all occurrences in the template filled
in, it does so one after the other, and no search comes upon what was filled in. -/
structure Right (p : Placeholder) (page : Page) : Prop where
  /-- What it returns. -/
  returned : strReplace (pageText page) p.search p.replacement = pageText (p.all page)
  /-- What the text is after some rounds. -/
  inTurn : ∀ count ≤ 1000,
    strReplaceLoop p.search p.replacement count (pageText page) = pageText (p.next^[count] page)
  /-- What a round finds. -/
  fromTemplate : ∀ count < 1000, ∀ pos,
    strstr p.search (strReplaceLoop p.search p.replacement count (pageText page)) = some pos →
      FromTemplate p.search pos (p.next^[count] page)

/-- The template has at most a thousand occurrences. With some of them filled in, the first
occurrence on the page is the next one in the template, and it starts below 4 GiB. -/
structure Plain (p : Placeholder) (page : Page) : Prop where
  /-- A thousand rounds are enough. -/
  few : place p.search (p.next^[1000] page) = none
  /-- Nothing that was filled in makes an occurrence before the next one in the template. -/
  first : ∀ count < 1000,
    strstr p.search (pageText (p.next^[count] page)) = place p.search (p.next^[count] page)
  /-- The start of the occurrence fits into 32 bits. -/
  low : ∀ count < 1000, ∀ pos, place p.search (p.next^[count] page) = some pos → pos < 2 ^ 32

end Placeholder

/-- The calls of `str_replace` that fill in a template. -/
def fillTemplate (template : Bytes) (placeholders : List Placeholder) : Bytes :=
  placeholders.foldl (fun text p => strReplace text p.search p.replacement) template

/-- The page with all placeholders filled in. -/
def filledPage (page : Page) (placeholders : List Placeholder) : Page :=
  placeholders.foldl (fun page p => p.all page) page

/-- What holds of each call, on the page that the calls before it should have made. -/
def EachCall (holds : Placeholder → Page → Prop) : List Placeholder → Page → Prop
  | [], _ => True
  | p :: placeholders, page => holds p page ∧ EachCall holds placeholders (p.all page)

/-- A template is filled in right: the page holds what was filled in as it is. -/
structure PageRight (template : Bytes) (placeholders : List Placeholder) (page : Bytes) : Prop where
  /-- The page. -/
  literal : page = pageText (filledPage [.raw (cstr template)] placeholders)
  /-- Each call fills in its placeholder. -/
  calls : EachCall Placeholder.Right placeholders [.raw (cstr template)]

/-- The placeholders of the page that lists a directory. -/
def listingPlaceholders (dirname rows : Bytes) : List Placeholder :=
  [⟨ascii "\x7b\x7bdirname\x7d\x7d", cstr dirname, by decide, by decide, zero_notMem_cstr _⟩,
    ⟨ascii "\x7b\x7bindex\x7d\x7d", cstr rows, by decide, by decide, zero_notMem_cstr _⟩]

/-- The rows of the page that lists a directory. -/
def listingRows (env : ServerEnv) (serveDir dirpath : Bytes) : Option Bytes := do
  let entries ← env.fs.opendir dirpath
  let rows ← (entries.take (1024 * 8 + 1)).mapM (directoryIndexRow env.fs serveDir dirpath)
  some rows.flatten

/-- The title of a builtin response. -/
def builtinTitle (code : UInt16) : Bytes :=
  let kind := if 400 ≤ code then ascii "Error" else ascii "Response Code"
  let title := kind ++ ascii " " ++ decimal code.toNat ++ ascii " - " ++
    cstr (httpResponseLineGetMessage (httpResponseLineNew code))
  title.take 1022

/-- The template of a builtin response. -/
def builtinTemplate (errorPage : Option Bytes) : Bytes :=
  errorPage.getD (ascii "\x7b\x7btitle\x7d\x7d\n\n\x7b\x7bmessage\x7d\x7d")

/-- The placeholders of a builtin response. -/
def builtinPlaceholders (code : UInt16) (errmsg : Option Bytes) : List Placeholder :=
  let title := cstr (builtinTitle code)
  [⟨ascii "\x7b\x7btitle\x7d\x7d", title, by decide, by decide, zero_notMem_cstr _⟩,
    ⟨ascii "\x7b\x7bbody_title\x7d\x7d", title, by decide, by decide, zero_notMem_cstr _⟩,
    ⟨ascii "\x7b\x7bmessage\x7d\x7d", cstr (errmsg.getD []), by decide, by decide,
      zero_notMem_cstr _⟩]

/-- What the program fills in: a call of `str_replace`, a page that lists a directory, and a
builtin response. -/
inductive Renders : Bytes → List Placeholder → Bytes → Prop where
  /-- `str_replace`. -/
  | call (haystack : Bytes) (p : Placeholder) :
    Renders haystack [p] (strReplace haystack p.search p.replacement)
  /-- `server_generate_directory_index`. -/
  | listing {env : ServerEnv} {serveDir dirpath page template rows : Bytes}
    (hpage : serverGenerateDirectoryIndex env serveDir dirpath = some (some page))
    (htemplate : env.dirindexPage = some template)
    (hrows : listingRows env serveDir dirpath = some rows) :
    Renders template (listingPlaceholders (strReplace dirpath serveDir []) rows) page
  /-- `http_response_create_builtin`. -/
  | builtin {errorPage : Option Bytes} {code : UInt16} {errmsg : Option Bytes}
    {resp : HttpResponse} {page : Bytes}
    (hresp : httpResponseCreateBuiltin errorPage code errmsg = some resp)
    (hpage : resp.body.data = some page) :
    Renders (builtinTemplate errorPage) (builtinPlaceholders code errmsg) page

/-- `strstr` finds the first occurrence. -/
theorem strstr_eq_occurrence (needle hay : Bytes) : strstr needle hay = occurrence needle hay := by
  induction hay with
  | nil => rfl
  | cons c rest ih => rw [strstr, occurrence, ih]

/-- The loop of `str_replace`, with its last round split off. -/
theorem strReplaceLoop_succ (search replacement : Bytes) (rounds : ℕ) (text : Bytes) :
    strReplaceLoop search replacement (rounds + 1) text =
      match strstr search (strReplaceLoop search replacement rounds text) with
      | none => strReplaceLoop search replacement rounds text
      | some pos =>
        (strReplaceLoop search replacement rounds text).take (pos % 2 ^ 32) ++ replacement ++
          (strReplaceLoop search replacement rounds text).drop (pos + search.length) := by
  induction rounds generalizing text with
  | zero => rfl
  | succ rounds ih =>
    cases hfound : strstr search text with
    | none =>
      have hstays (count : ℕ) : strReplaceLoop search replacement count text = text := by
        cases count with
        | zero => rfl
        | succ count => rw [strReplaceLoop, hfound]
      rw [hstays, hstays, hfound]
    | some pos =>
      rw [strReplaceLoop, hfound]
      dsimp only
      rw [ih, strReplaceLoop, hfound]

namespace Placeholder

variable {p : Placeholder} {page : Page}

/-- `str_replace` is its loop. -/
theorem strReplace_eq (p : Placeholder) {text : Bytes} (htext : 0 ∉ text) :
    strReplace text p.search p.replacement =
      strReplaceLoop p.search p.replacement 1000 text := by
  unfold strReplace
  rw [cstr_of_zero_notMem htext, cstr_of_zero_notMem p.search_text,
    cstr_of_zero_notMem p.replacement_text]
  dsimp only
  split
  · next hshort =>
    have hlength := List.length_pos_of_ne_nil p.search_ne
    have hnone : strstr p.search text = none := by
      rw [strstr_eq_occurrence, ← Option.not_isSome_iff_eq_none, Option.isSome_iff_exists]
      rintro ⟨pos, hpos⟩
      have hroom := add_length_le_of_occurrence p.search_ne hpos
      omega
    rw [strReplaceLoop, hnone]
  · rfl

/-- One more occurrence filled in. -/
theorem next_succ (p : Placeholder) (count : ℕ) (page : Page) :
    p.next^[count + 1] page = p.next (p.next^[count] page) := Function.iterate_succ_apply' _ _ _

/-- A page without an occurrence in the template stays as it is. -/
theorem next_of_place_none (h : place p.search page = none) : p.next page = page :=
  fillNext_of_place_none h

/-- The text of a page with one more occurrence filled in. -/
theorem pageText_next {pos : ℕ} (h : place p.search page = some pos) :
    pageText (p.next page) =
      (pageText page).take pos ++ p.replacement ++ (pageText page).drop (pos + p.search.length) :=
  pageText_fillNext p.search_ne h

/-- The rounds of the loop fill in the occurrences in the template, one after the other. -/
theorem Plain.inTurn (h : p.Plain page) {count : ℕ} (hcount : count ≤ 1000) :
    strReplaceLoop p.search p.replacement count (pageText page) =
      pageText (p.next^[count] page) := by
  induction count with
  | zero => rfl
  | succ count ih =>
    rw [strReplaceLoop_succ, ih (by omega), h.first count hcount, next_succ]
    cases hplace : place p.search (p.next^[count] page) with
    | none => rw [next_of_place_none hplace]
    | some pos =>
      have hlow := h.low count hcount pos hplace
      dsimp only
      rw [pageText_next hplace, Nat.mod_eq_of_lt hlow]

/-- Where no search comes upon what was filled in, the page is filled in right. -/
theorem Plain.right (h : p.Plain page) (hclean : 0 ∉ pageText page) : p.Right page := by
  refine ⟨?_, fun count hcount => h.inTurn hcount, fun count hcount pos hfound => ?_⟩
  · have hall : p.all page = p.next^[1000] page := by
      rw [all, ← fillAll_iterate p.search_ne 1000 page]
      exact fillAll_of_place_none h.few
    rw [p.strReplace_eq hclean, h.inTurn le_rfl, hall]
  · rw [h.inTurn (by omega), h.first count hcount] at hfound
    exact fromTemplate_of_place hfound

/-- Where a search finds text of the template, it finds its next occurrence. -/
theorem Right.first (h : p.Right page) {count : ℕ} (hcount : count < 1000) :
    strstr p.search (pageText (p.next^[count] page)) = place p.search (p.next^[count] page) := by
  have hfrom := h.fromTemplate count hcount
  rw [h.inTurn count (by omega), strstr_eq_occurrence] at hfrom
  rw [strstr_eq_occurrence]
  cases hfound : occurrence p.search (pageText (p.next^[count] page)) with
  | none => exact (place_eq_none hfound).symm
  | some pos => exact (place_eq_of_fromTemplate p.search_ne hfound (hfrom pos hfound)).symm

/-- Where the text of each round is right, the place is not cut. -/
theorem Right.low (h : p.Right page) {count pos : ℕ} (hcount : count < 1000)
    (hplace : place p.search (p.next^[count] page) = some pos) : pos < 2 ^ 32 := by
  have hround := strReplaceLoop_succ p.search p.replacement count (pageText page)
  rw [h.inTurn (count + 1) hcount, h.inTurn count (by omega), h.first hcount, hplace, next_succ,
    pageText_next hplace] at hround
  have hroom := (fromTemplate_of_place hplace).prefix_drop.length_le
  have hlength := congrArg List.length hround
  have hmod := Nat.mod_lt pos (by omega : 0 < 2 ^ 32)
  have hsearch := List.length_pos_of_ne_nil p.search_ne
  have hle := Nat.mod_le pos (2 ^ 32)
  simp only [List.length_append, List.length_take, List.length_drop] at hlength hroom
  omega

/-- Where a placeholder is filled in with itself, the second search comes upon it. -/
theorem Right.replacement_ne (h : p.Right page) {pos : ℕ}
    (hplace : place p.search page = some pos) : p.replacement ≠ p.search := by
  intro hsame
  have hlength := List.length_pos_of_ne_nil p.search_ne
  have hfirst : occurrence p.search (pageText page) = some pos := by
    rw [← strstr_eq_occurrence, ← hplace]
    exact h.first (by omega : 0 < 1000)
  have htext : pageText (p.next page) = pageText page := by
    rw [pageText_next hplace, hsame, take_append_occurrence hfirst]
  have hsecond : place p.search (p.next page) = some pos := by
    rw [← hfirst, ← htext, ← strstr_eq_occurrence]
    exact (h.first (by omega : 1 < 1000)).symm
  have hbehind := add_length_le_place p.search_ne hplace hsecond
  rw [hsame] at hbehind
  omega

/-- A page that is filled in right has at most a thousand occurrences in its template. -/
theorem Right.few (h : p.Right page) (hclean : 0 ∉ pageText page) :
    place p.search (p.next^[1000] page) = none := by
  cases hmore : place p.search (p.next^[1000] page) with
  | none => rfl
  | some pos =>
    have htext : pageText (p.all (p.next^[1000] page)) = pageText (p.next^[1000] page) := by
      rw [← h.inTurn 1000 le_rfl, ← p.strReplace_eq hclean, h.returned]
      exact congrArg pageText (fillAll_iterate p.search_ne 1000 page)
    have hsame := eq_of_fillAll_eq p.search_ne hmore htext
    cases hplace : place p.search page with
    | none =>
      have hstays : p.next^[1000] page = page :=
        place_of_place_iterate (Nat.zero_le 1000) hplace
      rw [hstays, hplace] at hmore
      exact absurd hmore (by simp)
    | some first => exact absurd hsame (h.replacement_ne hplace)

/-- A placeholder that stands in the template once is filled in right where the page does not hold
it afterwards. -/
theorem plain_of_once {pos : ℕ} (hplace : place p.search page = some pos) (hlow : pos < 2 ^ 32)
    (hfirst : strstr p.search (pageText page) = some pos)
    (hafter : strstr p.search (pageText (p.next page)) = none) : p.Plain page := by
  have hnone : place p.search (p.next page) = none := by
    rw [strstr_eq_occurrence] at hafter
    exact place_eq_none hafter
  have hstays (count : ℕ) : p.next^[count + 1] page = p.next page := by
    rw [Function.iterate_succ_apply]
    exact place_of_place_iterate (Nat.zero_le count) hnone
  refine ⟨by rw [hstays, hnone], fun count _ => ?_, fun count _ other hother => ?_⟩
  · cases count with
    | zero => exact hfirst.trans hplace.symm
    | succ count => rw [hstays, hafter, hnone]
  · cases count with
    | zero =>
      obtain rfl := Option.some.inj (hplace.symm.trans hother)
      exact hlow
    | succ count =>
      rw [hstays, hnone] at hother
      exact absurd hother (by simp)

/-- A call of `str_replace` is right exactly where no search comes upon what was filled in. -/
theorem right_iff (hclean : 0 ∉ pageText page) : p.Right page ↔ p.Plain page := by
  constructor
  · intro h
    refine ⟨h.few hclean, fun _ hcount => h.first hcount, fun _ hcount _ hplace => ?_⟩
    exact h.low hcount hplace
  · intro h
    exact h.right hclean

/-- A page of C strings is filled in with C strings. -/
theorem zero_notMem_all (p : Placeholder) (hclean : 0 ∉ pageText page) :
    0 ∉ pageText (p.all page) := by
  intro hzero
  rcases mem_fillAll hzero with hpage | hfilled
  · exact hclean hpage
  · exact p.replacement_text hfilled

end Placeholder

/-! ### Templates -/

section Templates

variable {placeholders : List Placeholder} {page : Page}

/-- **Run lemma.** All calls are right exactly where each of them comes upon nothing that was
filled in. -/
theorem eachCall_iff (hclean : 0 ∉ pageText page) :
    EachCall Placeholder.Right placeholders page ↔
      EachCall Placeholder.Plain placeholders page := by
  induction placeholders generalizing page with
  | nil => exact Iff.rfl
  | cons p placeholders ih =>
    rw [EachCall, EachCall, Placeholder.right_iff hclean, ih (p.zero_notMem_all hclean)]

/-- **Run lemma.** Calls that are right make the page that they should make. -/
theorem fillTemplate_eq (hcalls : EachCall Placeholder.Right placeholders page) :
    fillTemplate (pageText page) placeholders = pageText (filledPage page placeholders) := by
  induction placeholders generalizing page with
  | nil => rfl
  | cons p placeholders ih =>
    have hthis := hcalls.1.returned
    have hlater := ih hcalls.2
    rw [fillTemplate, filledPage, List.foldl_cons, List.foldl_cons, hthis]
    exact hlater

/-- With one placeholder the page is the text with each leftmost, non-overlapping occurrence
replaced. -/
theorem pageText_filledPage_single (p : Placeholder) (haystack : Bytes) :
    pageText (filledPage [.raw haystack] [p]) = replaceAll p.search p.replacement 0 haystack :=
  pageText_fillAll_raw p.search_ne haystack

end Templates

/-! ### The pages of the server -/

/-- `str_replace` reads its text up to the terminator. -/
theorem strReplace_cstr (haystack search replacement : Bytes) :
    strReplace (cstr haystack) search replacement = strReplace haystack search replacement := by
  simp only [strReplace, cstr_cstr]

/-- `str_replace` reads what it puts in up to the terminator. -/
theorem strReplace_cstr_replacement (haystack search replacement : Bytes) :
    strReplace haystack search (cstr replacement) = strReplace haystack search replacement := by
  simp only [strReplace, cstr_cstr]

/-- The page that lists a directory is the template filled in with the name and the rows. -/
theorem serverGenerateDirectoryIndex_eq {env : ServerEnv} {serveDir dirpath page : Bytes}
    (hpage : serverGenerateDirectoryIndex env serveDir dirpath = some (some page)) :
    ∃ template rows, env.dirindexPage = some template ∧
      listingRows env serveDir dirpath = some rows ∧
      page = fillTemplate (cstr template)
        (listingPlaceholders (strReplace dirpath serveDir []) rows) := by
  unfold serverGenerateDirectoryIndex at hpage
  split at hpage
  · simp at hpage
  · next entries hentries =>
    obtain ⟨rows, hrows, hpage⟩ := Option.bind_eq_some_iff.mp hpage
    obtain ⟨template, htemplate, rfl⟩ := Option.map_eq_some_iff.mp (Option.some.inj hpage)
    refine ⟨template, rows.flatten, htemplate, ?_, ?_⟩
    · simp [listingRows, hentries, hrows]
    · simp only [fillTemplate, listingPlaceholders, List.foldl_cons, List.foldl_nil,
        strReplace_cstr, strReplace_cstr_replacement]

/-- A text that is appended to a body without data is its data. -/
theorem data_of_appendStr {body body' : HttpBody} {str : Bytes} (hempty : body.data = none)
    (h : body.appendStr str (strlen str) = some body') :
    body'.data = none ∨ body'.data = some (cstr str) := by
  have hold : cstr (body.data.getD []) = [] := by rw [hempty]; rfl
  have hadded : (cstr str).take (strlen str + 1 + 0 - 1) = cstr str := List.take_length
  unfold HttpBody.appendStr at h
  rw [hold] at h
  split at h
  · simp at h
  · split at h
    · obtain rfl := Option.some.inj h
      exact Or.inl hempty
    · obtain ⟨-, heq⟩ := Option.ite_none_right_eq_some.mp h
      obtain rfl := Option.some.inj heq
      exact Or.inr (congrArg some hadded)

/-- The page of a builtin response is its template. -/
theorem builtinPage_data {errorPage : Option Bytes} {resp resp' : HttpResponse}
    (hempty : resp.body.data = none) (h : builtinPage errorPage resp = some resp') :
    resp'.body.data = none ∨ resp'.body.data = some (cstr (builtinTemplate errorPage)) := by
  cases errorPage with
  | some map =>
    obtain ⟨body, hbody, rfl⟩ := Option.map_eq_some_iff.mp h
    exact data_of_appendStr hempty hbody
  | none =>
    simp only [builtinPage, Option.bind_eq_bind, Option.bind_eq_some_iff, Option.some.injEq] at h
    obtain ⟨middle, hmiddle, _, _, rfl⟩ := h
    obtain ⟨body, hbody, rfl⟩ := Option.map_eq_some_iff.mp hmiddle
    exact data_of_appendStr hempty hbody

/-- The body of a builtin response is the template filled in with the title and the message. -/
theorem httpResponseCreateBuiltin_data {errorPage : Option Bytes} {code : UInt16}
    {errmsg : Option Bytes} {resp : HttpResponse}
    (h : httpResponseCreateBuiltin errorPage code errmsg = some resp) :
    resp.body.data = some (fillTemplate (cstr (builtinTemplate errorPage))
      (builtinPlaceholders code errmsg)) := by
  simp only [httpResponseCreateBuiltin, Option.bind_eq_bind, Option.bind_eq_some_iff,
    Option.some.injEq] at h
  obtain ⟨headers, _, paged, hpage, str, hstr, rfl⟩ := h
  obtain ⟨_, _, hpaged⟩ := builtinPage_eq hpage
  have hresp : paged.resp = httpResponseLineNew code := by rw [hpaged]; rfl
  have htemplate : str = cstr (builtinTemplate errorPage) := by
    rcases builtinPage_data rfl hpage with hnone | hsome
    · exact absurd (hnone.symm.trans hstr) (by simp)
    · exact Option.some.inj (hstr.symm.trans hsome)
  simp only [fillTemplate, builtinPlaceholders, List.foldl_cons, List.foldl_nil,
    strReplace_cstr_replacement, htemplate, hresp, builtinTitle]

/-- What the program fills in is filled in by `str_replace`, one placeholder after the other. -/
theorem Renders.eq_fillTemplate {template page : Bytes} {placeholders : List Placeholder}
    (h : Renders template placeholders page) :
    page = fillTemplate (cstr template) placeholders := by
  cases h with
  | call haystack p => exact (strReplace_cstr _ _ _).symm
  | listing hpage htemplate hrows =>
    obtain ⟨template', rows', htemplate', hrows', heq⟩ := serverGenerateDirectoryIndex_eq hpage
    obtain rfl := Option.some.inj (htemplate.symm.trans htemplate')
    obtain rfl := Option.some.inj (hrows.symm.trans hrows')
    exact heq
  | builtin hresp hpage =>
    exact Option.some.inj (hpage.symm.trans (httpResponseCreateBuiltin_data hresp))

/-- What the program fills in is right exactly where, call by call, no search comes upon what was
filled in, at most a thousand occurrences are there and each starts below 4 GiB. -/
theorem pageRight_iff {template page : Bytes} {placeholders : List Placeholder}
    (h : Renders template placeholders page) :
    PageRight template placeholders page ↔
      EachCall Placeholder.Plain placeholders [.raw (cstr template)] := by
  have htext : pageText [Piece.raw (cstr template)] = cstr template := List.append_nil _
  have hclean : 0 ∉ pageText [Piece.raw (cstr template)] := by
    rw [htext]
    exact zero_notMem_cstr template
  rw [← eachCall_iff hclean]
  constructor
  · exact PageRight.calls
  · intro hcalls
    refine ⟨?_, hcalls⟩
    rw [h.eq_fillTemplate, ← fillTemplate_eq hcalls, htext]

/-- A message without a placeholder is shown as it is. -/
theorem pageRight_message :
    PageRight (ascii "Sorry: \x7b\x7bmessage\x7d\x7d")
      [⟨ascii "\x7b\x7bmessage\x7d\x7d", ascii "not found", by decide, by decide, by decide⟩]
      (ascii "Sorry: not found") := by
  have hpage : strReplace (ascii "Sorry: \x7b\x7bmessage\x7d\x7d")
      (ascii "\x7b\x7bmessage\x7d\x7d") (ascii "not found") = ascii "Sorry: not found" := by
    decide +kernel
  rw [← hpage]
  refine (pageRight_iff (.call _ ⟨_, _, by decide, by decide, by decide⟩)).mpr ⟨?_, trivial⟩
  exact Placeholder.plain_of_once (by decide +kernel) (by decide : 7 < 2 ^ 32) (by decide +kernel)
    (by decide +kernel)

/-- Removing a text joins what stood around it, and the search comes upon that. A directory whose
name is a placeholder is shown as its rows. -/
theorem not_pageRight_index :
    (strReplace (ascii "aabb") (ascii "ab") [] = [] ∧
      ¬ PageRight (ascii "aabb") [⟨ascii "ab", [], by decide, by decide, by decide⟩] []) ∧
    fillTemplate (ascii "\x7b\x7bdirname\x7d\x7d: \x7b\x7bindex\x7d\x7d")
        (listingPlaceholders (ascii "/\x7b\x7bindex\x7d\x7d") (ascii "a.txt")) =
      ascii "/a.txt: a.txt" ∧
    ¬ PageRight (ascii "\x7b\x7bdirname\x7d\x7d: \x7b\x7bindex\x7d\x7d")
        (listingPlaceholders (ascii "/\x7b\x7bindex\x7d\x7d") (ascii "a.txt"))
        (ascii "/a.txt: a.txt") := by
  refine ⟨⟨by decide +kernel, fun hright => ?_⟩, by decide +kernel, fun hright => ?_⟩
  · exact absurd hright.literal (by decide +kernel)
  · exact absurd hright.literal (by decide +kernel)

end Khttp
