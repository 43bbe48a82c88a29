import Khttp.HttpServer

/-!
# What a host lets out of its directory

The path of a requested file is compared with the directory of the host byte by
byte, and the name of an index file is appended after that comparison. What is shown
therefore lies in the directory unless the path shares the spelling of its last name
with that of a place beside it, or an index entry leads out of it.
-/

namespace Khttp

open Lib

section

variable {env : ServerEnv} {hconfig : ConfigHost} {dir p q : Place} {filepath : Bytes}

/-- What the code shows for a place that it accepts: the file there, an index file of the
directory there, or a listing of that directory. -/
inductive Shows (env : ServerEnv) (hconfig : ConfigHost) (dir p : Place) : Place → Prop
  | file (hnode : env.fs.tree.node p = some .regular) (hopen : env.fs.openable p = true) :
      Shows env hconfig dir p p
  | index {q : Place} {entries : List Bytes} {entry : Bytes}
      (hnode : env.fs.tree.node p = some (.directory entries)) (hopen : env.fs.openable p = true)
      (hentry : directoryIndexEntry hconfig entries = some entry)
      (hindex : env.fs.fopen (entryPath (render p) entry) = some q) : Shows env hconfig dir p q
  | listing {entries : List Bytes} {page : Bytes}
      (hnode : env.fs.tree.node p = some (.directory entries)) (hopen : env.fs.openable p = true)
      (hentry : directoryIndexEntry hconfig entries = none) (hlistings : hconfig.dirListings = true)
      (hpage : serverGenerateDirectoryIndex env (render dir) (render p) = some (some page)) :
      Shows env hconfig dir p p

/-- The comparison of the code finds that the text of one path starts that of the other. -/
theorem strneq_render (dir p : Place) :
    strneq (render dir) (render p) (strlen (render dir)) = true ↔
      dir <+: p ∨ SharesName dir p := by
  have hlen : strlen (render dir) = (render dir).length := by simp [strlen]
  unfold strneq
  rw [hlen, cstr_render, cstr_render, beq_iff_eq, List.take_length, ← List.prefix_iff_eq_take,
    render_prefix_iff]

/-- A path that leads to no accepted place is not found. -/
theorem serverDetermineFile_notFound
    (h : ∀ p, env.fs.find filepath = some p → ¬ (dir <+: p ∨ SharesName dir p)) :
    serverDetermineFile env.fs hconfig (render dir) filepath = serverFileNotFound := by
  unfold serverDetermineFile FileSystem.realpath
  cases hfind : env.fs.find filepath with
  | none => rfl
  | some p =>
    have hpass : strneq (render dir) (render p) (strlen (render dir)) = false := by
      rw [Bool.eq_false_iff, ne_eq, strneq_render]
      exact h p hfind
    simp only [Option.map_some, hpass, Bool.false_eq_true, if_false]

/-- A path that leads to an accepted place is treated by what stands there. -/
theorem serverDetermineFile_of_find (hfind : env.fs.find filepath = some p)
    (hpass : dir <+: p ∨ SharesName dir p) :
    serverDetermineFile env.fs hconfig (render dir) filepath =
      serverDetermineStat env.fs hconfig (render p) (env.fs.tree.node p) := by
  have hstat : env.fs.stat (render p) = env.fs.tree.node p := by
    simp [FileSystem.stat, FileSystem.find_render (FileSystem.isPlace_of_find hfind)]
  unfold serverDetermineFile FileSystem.realpath
  simp only [hfind, Option.map_some, (strneq_render dir p).mpr hpass, if_true, hstat]

/-- The directory at a place can be opened exactly when the place can. -/
theorem opendir_render {fs : FileSystem} {entries : List Bytes} (hp : fs.tree.IsPlace p)
    (hnode : fs.tree.node p = some (.directory entries)) :
    fs.opendir (render p) = if fs.openable p then some entries else none := by
  unfold FileSystem.opendir FileSystem.fopen
  rw [FileSystem.find_render hp]
  by_cases hopen : fs.openable p <;> simp [Option.filter, hopen, hnode]

/-- A file at a place is opened exactly when the place can. -/
theorem fopen_render {fs : FileSystem} (hp : fs.tree.IsPlace p) :
    fs.fopen (render p) = if fs.openable p then some p else none := by
  unfold FileSystem.fopen
  rw [FileSystem.find_render hp, Option.filter]

/-- The result of `server_determine_file` leads to a stream that shows a place. -/
def Opens (env : ServerEnv) (dir : Place) (result : ServerFileResult) (q : Place) : Prop :=
  ∃ file, serverOpenFile env (render dir) result = some (.ok file) ∧ file.shown = some q

/-- Nothing is shown where a result has an error or no path. -/
theorem not_opens {result : ServerFileResult} (h : result.error = true ∨ result.path = none) :
    ¬ Opens env dir result q := by
  rintro ⟨file, hfile, _⟩
  unfold serverOpenFile at hfile
  rcases h with herror | hpath
  · simp [herror] at hfile
  · split at hfile
    · simp at hfile
    · simp [hpath] at hfile

/-- A file with a name is shown exactly when it can be opened. -/
theorem opens_path {path : Bytes} :
    Opens env dir { serverFileResultNew with path := some path } q ↔
      env.fs.fopen path = some q := by
  unfold Opens serverOpenFile
  cases hopen : env.fs.fopen path with
  | none => simp [serverFileResultNew, hopen]
  | some file => simp [serverFileResultNew, hopen]

/-- A directory is shown exactly when a page can be made for it. -/
theorem opens_directory (hp : env.fs.tree.IsPlace p) :
    Opens env dir { serverFileResultNew with dir := true, path := some (render p) } q ↔
      (∃ page, serverGenerateDirectoryIndex env (render dir) (render p) = some (some page)) ∧
        q = p := by
  unfold Opens serverOpenFile
  rcases hpage : serverGenerateDirectoryIndex env (render dir) (render p) with _ | _ | page
  · simp [serverFileResultNew, hpage]
  · simp [serverFileResultNew, hpage]
  · simp [serverFileResultNew, hpage, FileSystem.find_render hp, eq_comm]

/-- A directory that can be listed can be opened. -/
theorem openable_of_page {page : Bytes} (hp : env.fs.tree.IsPlace p) {entries : List Bytes}
    (hnode : env.fs.tree.node p = some (.directory entries))
    (hpage : serverGenerateDirectoryIndex env (render dir) (render p) = some (some page)) :
    env.fs.openable p = true := by
  by_contra hopen
  unfold serverGenerateDirectoryIndex at hpage
  rw [opendir_render hp hnode, if_neg hopen] at hpage
  simp at hpage

/-- The index file of a directory at a place. -/
theorem serverFindDirectoryIndex_render {fs : FileSystem} {entries : List Bytes}
    (hp : fs.tree.IsPlace p) (hnode : fs.tree.node p = some (.directory entries)) :
    serverFindDirectoryIndex fs hconfig (render p) =
      if fs.openable p then (directoryIndexEntry hconfig entries).map (entryPath (render p))
      else none := by
  unfold serverFindDirectoryIndex
  rw [opendir_render hp hnode]
  by_cases hopen : fs.openable p <;> simp [hopen]

/-- A directory without an index file is shown exactly when it can be listed. -/
theorem opens_determineDirectory_none (hp : env.fs.tree.IsPlace p)
    (hindex : serverFindDirectoryIndex env.fs hconfig (render p) = none) :
    Opens env dir (serverDetermineDirectory env.fs hconfig (render p)) q ↔
      hconfig.dirListings = true ∧
        (∃ page, serverGenerateDirectoryIndex env (render dir) (render p) = some (some page)) ∧
        q = p := by
  unfold serverDetermineDirectory
  rw [hindex]
  by_cases hlistings : hconfig.dirListings
  · simp only [hlistings, if_true, true_and]
    exact opens_directory hp
  · simp only [hlistings, Bool.false_eq_true, if_false, false_and, iff_false]
    exact not_opens (Or.inl rfl)

/-- What is opened for a place is what the code shows for it. -/
theorem opens_iff (hp : env.fs.tree.IsPlace p) :
    Opens env dir (serverDetermineStat env.fs hconfig (render p) (env.fs.tree.node p)) q ↔
      Shows env hconfig dir p q := by
  constructor
  · intro hopens
    cases hnode : env.fs.tree.node p with
    | none =>
      rw [hnode] at hopens
      exact absurd hopens (not_opens (Or.inl rfl))
    | some found =>
      rw [hnode] at hopens
      cases found with
      | symlink _ | special => exact absurd hopens (not_opens (Or.inr rfl))
      | regular =>
        have hfopen := opens_path.mp hopens
        rw [fopen_render hp] at hfopen
        split at hfopen
        · next hopen =>
          obtain rfl := Option.some.inj hfopen
          exact .file hnode hopen
        · simp at hfopen
      | directory entries =>
        have hfound := @serverFindDirectoryIndex_render hconfig p env.fs _ hp hnode
        rw [serverDetermineStat] at hopens
        cases hindex : serverFindDirectoryIndex env.fs hconfig (render p) with
        | none =>
          obtain ⟨hlistings, ⟨page, hpage⟩, rfl⟩ :=
            (opens_determineDirectory_none hp hindex).mp hopens
          have hopen := openable_of_page hp hnode hpage
          rw [hindex, if_pos hopen] at hfound
          exact .listing hnode hopen (Option.map_eq_none_iff.mp hfound.symm) hlistings hpage
        | some path =>
          rw [hindex] at hfound
          split at hfound
          · next hopen =>
            obtain ⟨entry, hentry, rfl⟩ := Option.map_eq_some_iff.mp hfound.symm
            rw [serverDetermineDirectory, hindex] at hopens
            exact .index hnode hopen hentry (opens_path.mp hopens)
          · simp at hfound
  · intro hshows
    cases hshows with
    | file hnode hopen =>
      rw [hnode]
      exact opens_path.mpr (by rw [fopen_render hp, if_pos hopen])
    | index hnode hopen hentry hindex =>
      rw [hnode, serverDetermineStat, serverDetermineDirectory,
        serverFindDirectoryIndex_render hp hnode, if_pos hopen, hentry]
      exact opens_path.mpr hindex
    | listing hnode hopen hentry hlistings hpage =>
      have hfound := @serverFindDirectoryIndex_render hconfig p env.fs _ hp hnode
      rw [if_pos hopen, hentry] at hfound
      rw [hnode]
      exact (opens_determineDirectory_none hp hfound).mpr ⟨hlistings, ⟨_, hpage⟩, rfl⟩

/-- What is opened for a path is what the code shows for the place it leads to, if that is
accepted. -/
theorem opens_determineFile_iff :
    Opens env dir (serverDetermineFile env.fs hconfig (render dir) filepath) q ↔
      ∃ p, env.fs.find filepath = some p ∧ (dir <+: p ∨ SharesName dir p) ∧
        Shows env hconfig dir p q := by
  by_cases haccepted : ∃ p, env.fs.find filepath = some p ∧ (dir <+: p ∨ SharesName dir p)
  · obtain ⟨p, hfind, hpass⟩ := haccepted
    rw [serverDetermineFile_of_find hfind hpass, opens_iff (FileSystem.isPlace_of_find hfind)]
    simp [hfind, hpass]
  · have hrefused : ∀ p, env.fs.find filepath = some p → ¬ (dir <+: p ∨ SharesName dir p) :=
      fun p hfind hpass => haccepted ⟨p, hfind, hpass⟩
    rw [serverDetermineFile_notFound hrefused]
    constructor
    · intro hopens
      exact absurd hopens (not_opens (Or.inl rfl))
    · rintro ⟨p, hfind, hpass, _⟩
      exact absurd hpass (hrefused p hfind)

/-- An entry of a directory that is reached without following a link, and its name. -/
def PlainEntry (fs : FileSystem) (p : Place) (entry : Bytes) (n : PathName pathSyntax) : Prop :=
  component pathSyntax (cstr entry) = .down n ∧
    ∃ found, fs.tree.node (p ++ [n]) = some found ∧ ∀ target, found ≠ .symlink target

/-- A place lets something out of the directory: a file, a plain index file or a listing
where the place only shares the name of the directory, or an index entry that is a link, or
no name at all, and leads out of it. -/
inductive Escapes (env : ServerEnv) (hconfig : ConfigHost) (dir p : Place) : Prop
  | file (hshares : SharesName dir p) (hnode : env.fs.tree.node p = some .regular)
      (hopen : env.fs.openable p = true)
  | index {entries : List Bytes} {entry : Bytes} {n : PathName pathSyntax}
      (hshares : SharesName dir p) (hnode : env.fs.tree.node p = some (.directory entries))
      (hopen : env.fs.openable p = true) (hsearch : env.fs.tree.searchable p = true)
      (hentry : directoryIndexEntry hconfig entries = some entry)
      (hplain : PlainEntry env.fs p entry n) (hindex : env.fs.openable (p ++ [n]) = true)
  | link {q : Place} {entries : List Bytes} {entry : Bytes}
      (hpass : dir <+: p ∨ SharesName dir p)
      (hnode : env.fs.tree.node p = some (.directory entries)) (hopen : env.fs.openable p = true)
      (hentry : directoryIndexEntry hconfig entries = some entry)
      (hlink : ∀ n, ¬ PlainEntry env.fs p entry n)
      (hindex : env.fs.fopen (entryPath (render p) entry) = some q) (hout : ¬ dir <+: q)
  | listing {entries : List Bytes} {page : Bytes} (hshares : SharesName dir p)
      (hnode : env.fs.tree.node p = some (.directory entries)) (hopen : env.fs.openable p = true)
      (hentry : directoryIndexEntry hconfig entries = none) (hlistings : hconfig.dirListings = true)
      (hpage : serverGenerateDirectoryIndex env (render dir) (render p) = some (some page))

/-- A place that lets something out was accepted. -/
theorem Escapes.accepted (h : Escapes env hconfig dir p) : dir <+: p ∨ SharesName dir p := by
  cases h with
  | link hpass => exact hpass
  | file hshares | index hshares | listing hshares => exact Or.inr hshares

/-- A path through an entry is resolved from the directory. -/
theorem find_entryPath {fs : FileSystem} (hp : fs.tree.IsPlace p) (entry : Bytes) :
    fs.find (entryPath (render p) entry) =
      fs.tree.resolve FileSystem.maxSymlinks p (components pathSyntax (cstr entry)) := by
  have htext : entryPath (render p) entry = render p ++ pathSyntax.sep :: cstr entry := by
    rw [entryPath, cstr_render, List.append_assoc]
    rfl
  have hzero : 0 ∉ render p ++ pathSyntax.sep :: cstr entry := by
    have hsep : (0 : UInt8) ≠ pathSyntax.sep := by decide
    simp only [List.mem_append, List.mem_cons, not_or]
    exact ⟨zero_notMem_render p, hsep, zero_notMem_cstr entry⟩
  rw [htext, FileSystem.find, cstr_of_zero_notMem hzero]
  exact FileTree.lookup_render_append hp _ _

/-- A plain entry is opened exactly where it stands. -/
theorem fopen_plainEntry {fs : FileSystem} {entry : Bytes} {n : PathName pathSyntax}
    {entries : List Bytes} (hp : fs.tree.IsPlace p)
    (hnode : fs.tree.node p = some (.directory entries)) (hplain : PlainEntry fs p entry n) :
    fs.fopen (entryPath (render p) entry) = some q ↔
      fs.tree.searchable p = true ∧ fs.openable (p ++ [n]) = true ∧ q = p ++ [n] := by
  obtain ⟨hdown, found, hfound, hlink⟩ := hplain
  have hcomponents : components pathSyntax (cstr entry) = [.down n] := by
    have hsep := n.isName.2.1
    rw [text_of_component_eq_down hdown] at hsep
    rw [components_of_sep_notMem hsep, hdown]
  unfold FileSystem.fopen
  rw [find_entryPath hp, hcomponents]
  by_cases hsearch : fs.tree.searchable p
  · have henters : enters fs.tree.node fs.tree.searchable p = true := by
      simp [enters, hnode, hsearch]
    rw [FileTree.resolve_down henters hfound hlink]
    by_cases hopen : fs.openable (p ++ [n]) <;> simp [Option.filter, hopen, hsearch, eq_comm]
  · have henters : enters fs.tree.node fs.tree.searchable p = false := by
      simp [enters, hnode, hsearch]
    rw [FileTree.resolve_of_not_enters henters]
    simp [hsearch]

/-- Something outside the directory is shown exactly when the place lets it out. -/
theorem exists_shows_outside_iff (hp : env.fs.tree.IsPlace p)
    (hpass : dir <+: p ∨ SharesName dir p) :
    (∃ q, Shows env hconfig dir p q ∧ ¬ dir <+: q) ↔ Escapes env hconfig dir p := by
  have hshares (hout : ¬ dir <+: p) : SharesName dir p := hpass.resolve_left hout
  constructor
  · rintro ⟨q, hshows, hout⟩
    cases hshows with
    | file hnode hopen => exact .file (hshares hout) hnode hopen
    | listing hnode hopen hentry hlistings hpage =>
      exact .listing (hshares hout) hnode hopen hentry hlistings hpage
    | @index _ entries entry hnode hopen hentry hindex =>
      by_cases hplain : ∃ n, PlainEntry env.fs p entry n
      · obtain ⟨n, hplain⟩ := hplain
        obtain ⟨hsearch, hopenn, rfl⟩ := (fopen_plainEntry hp hnode hplain).mp hindex
        have hp' : ¬ dir <+: p := fun hin => hout (hin.trans (List.prefix_append p [n]))
        exact .index (hshares hp') hnode hopen hsearch hentry hplain hopenn
      · exact .link hpass hnode hopen hentry (fun n hn => hplain ⟨n, hn⟩) hindex hout
  · intro hescapes
    cases hescapes with
    | file hshares hnode hopen => exact ⟨p, .file hnode hopen, hshares.not_below⟩
    | listing hshares hnode hopen hentry hlistings hpage =>
      exact ⟨p, .listing hnode hopen hentry hlistings hpage, hshares.not_below⟩
    | @index entries entry n hshares hnode hopen hsearch hentry hplain hindex =>
      refine ⟨p ++ [n], .index hnode hopen hentry ?_, ?_⟩
      · exact (fopen_plainEntry hp hnode hplain).mpr ⟨hsearch, hindex, rfl⟩
      · exact (hshares.append [n]).not_below
    | link _ hnode hopen hentry _ hindex hout =>
      exact ⟨_, .index hnode hopen hentry hindex, hout⟩

end

variable {env : ServerEnv} {config : ConfigServer} {request : HttpRequest}
  {line : HttpRequestLine} {hconfig : ConfigHost} {dir : Place}

/-- Whenever the request is answered with 200, what is shown lies in the directory. -/
def ShowsInside (env : ServerEnv) (config : ConfigServer) (request : HttpRequest) (dir : Place) :
    Prop :=
  ∀ answer, serverProcessRequest env config request = some answer →
    answer.response.resp.code = 200 → ∃ q, answer.shown = some q ∧ dir <+: q

/-- The path that the request leads to lets something out of the directory. -/
def RequestEscapes (env : ServerEnv) (hconfig : ConfigHost) (line : HttpRequestLine)
    (dir : Place) : Prop :=
  ∃ uri p, requestPath line = some (.ok uri) ∧ env.fs.find (render dir ++ uri) = some p ∧
    Escapes env hconfig dir p

/-- A refusal has its own status code. -/
theorem refuse_code {refusal : Refusal} {response : HttpResponse}
    (h : refuse env refusal = some response) : response.resp.code = refusal.code := by
  obtain ⟨headers, body, rfl⟩ := refuse_eq h
  rfl

/-- A path is missing because of the method, or because the parser found none. -/
theorem requestPath_error {refusal : Refusal} (h : requestPath line = some (.error refusal)) :
    refusal.code = 411 ∨ refusal = ⟨400, ascii "URI is required or was invalid"⟩ := by
  unfold requestPath at h
  split at h
  · obtain rfl := Except.error.inj (Option.some.inj h)
    exact Or.inl rfl
  · obtain ⟨uri, _, hresult⟩ := Option.map_eq_some_iff.mp h
    dsimp only at hresult
    split_ifs at hresult with hnegative
    · exact absurd hnegative (not_lt.mpr (httpParserParseUrl_nonneg _ _))
    · exact Or.inr (Except.error.inj hresult).symm

/-- An error about a directory has one of two status codes. -/
theorem serverDetermineDirectory_error {fs : FileSystem} {path : Bytes}
    (h : (serverDetermineDirectory fs hconfig path).error = true) :
    (serverDetermineDirectory fs hconfig path).errorCode ∈ [403, 404] := by
  unfold serverDetermineDirectory at h ⊢
  split at h
  · simp [serverFileResultNew] at h
  · split at h
    · simp [serverFileResultNew] at h
    · next hlistings => simp [hlistings, serverFileResultSeterror]

/-- A file result with an error has one of two status codes. -/
theorem serverDetermineFile_error {fs : FileSystem} {serveDir filepath : Bytes}
    (h : (serverDetermineFile fs hconfig serveDir filepath).error = true) :
    (serverDetermineFile fs hconfig serveDir filepath).errorCode ∈ [403, 404] := by
  have hnotFound : serverFileNotFound.errorCode ∈ [403, 404] := by
    simp [serverFileNotFound, serverFileResultSeterror]
  unfold serverDetermineFile at h ⊢
  cases hreal : fs.realpath filepath with
  | none => exact hnotFound
  | some actual =>
    simp only [hreal] at h ⊢
    split_ifs at h ⊢
    · rcases hstat : fs.stat actual with _ | found
      · exact hnotFound
      · rw [hstat] at h
        cases found with
        | directory _ => exact serverDetermineDirectory_error h
        | regular | symlink _ | special => simp [serverDetermineStat, serverFileResultNew] at h
    · exact hnotFound

/-- The lookup of a file fails with one of three codes. -/
theorem serverOpenFile_error {serveDir filepath : Bytes} {refusal : Refusal}
    (h : serverOpenFile env serveDir (serverDetermineFile env.fs hconfig serveDir filepath) =
      some (.error refusal)) : refusal.code ∈ [403, 404, 500] := by
  unfold serverOpenFile at h
  split at h
  · next herror =>
    obtain rfl := Except.error.inj (Option.some.inj h)
    have hcode := serverDetermineFile_error herror
    simp only [List.mem_cons, List.not_mem_nil, or_false] at hcode
    rcases hcode with hcode | hcode <;> simp [hcode]
  · obtain ⟨path, _, hopened⟩ := Option.bind_eq_some_iff.mp h
    split at hopened
    · obtain ⟨page, _, hpage⟩ := Option.map_eq_some_iff.mp hopened
      cases page with
      | none =>
        obtain rfl := Except.error.inj hpage
        simp
      | some page => simp at hpage
    · split at hopened
      · obtain rfl := Except.error.inj (Option.some.inj hopened)
        simp
      · simp at hopened

/-- A file that was opened is answered with 200 when the client's wish about the connection can
be read. -/
theorem serverRespond_cases (env : ServerEnv) (request : HttpRequest) (line : HttpRequestLine)
    (file : OpenedFile) :
    (closesConnection request line = none ∧ serverRespond env request line file = none) ∨
    (closesConnection request line ≠ none ∧
      ∃ response, serverRespond env request line file = some response ∧
        response.resp.code = 200) := by
  rw [serverRespond_eq_map]
  cases closesConnection request line with
  | none => exact Or.inl ⟨rfl, rfl⟩
  | some close => exact Or.inr ⟨by simp, _, rfl, rfl⟩

/-- A stream that was opened shows a place. -/
theorem exists_shown {result : ServerFileResult} {serveDir : Bytes} {file : OpenedFile}
    (h : serverOpenFile env serveDir result = some (.ok file)) : ∃ q, file.shown = some q := by
  unfold serverOpenFile at h
  split at h
  · simp at h
  · obtain ⟨path, _, hopened⟩ := Option.bind_eq_some_iff.mp h
    split at hopened
    · obtain ⟨page, hpage, hfile⟩ := Option.map_eq_some_iff.mp hopened
      cases page with
      | none => simp at hfile
      | some page =>
        obtain rfl := Except.ok.inj hfile
        unfold serverGenerateDirectoryIndex at hpage
        cases hopendir : env.fs.opendir path with
        | none => simp [hopendir] at hpage
        | some entries =>
          obtain ⟨p, hfind, _⟩ := FileSystem.opendir_eq_some.mp hopendir
          exact ⟨p, hfind⟩
    · split at hopened
      · simp at hopened
      · next q _ =>
        obtain rfl := Except.ok.inj (Option.some.inj hopened)
        exact ⟨q, rfl⟩

/-- What the answer for a path shows lies in the directory exactly when everything that can be
opened for the path does. -/
theorem serverAnswer_inside_iff {filepath : Bytes} :
    (∀ answer, serverAnswer env request line hconfig (render dir) filepath = some answer →
      answer.response.resp.code = 200 → ∃ q, answer.shown = some q ∧ dir <+: q) ↔
    (closesConnection request line ≠ none → ∀ q,
      Opens env dir (serverDetermineFile env.fs hconfig (render dir) filepath) q → dir <+: q) := by
  unfold serverAnswer
  constructor
  · rintro hinside hclose q ⟨file, hfile, hshown⟩
    obtain ⟨_, response, hresponse, hcode⟩ :=
      (serverRespond_cases env request line file).resolve_left fun h => hclose h.1
    obtain ⟨q', hq', hin⟩ := hinside ⟨response, file.shown⟩ (by simp [hfile, hresponse]) hcode
    obtain rfl := Option.some.inj (hshown.symm.trans hq')
    exact hin
  · intro hopens answer hanswer hcode
    obtain ⟨opened, hopened, hanswer⟩ := Option.bind_eq_some_iff.mp hanswer
    cases opened with
    | error refusal =>
      obtain ⟨response, hresponse, rfl⟩ := Option.map_eq_some_iff.mp hanswer
      have hrefused := serverOpenFile_error hopened
      rw [(refuse_code hresponse).symm.trans hcode] at hrefused
      simp at hrefused
    | ok file =>
      obtain ⟨response, hresponse, rfl⟩ := Option.map_eq_some_iff.mp hanswer
      obtain ⟨q, hq⟩ := exists_shown hopened
      rcases serverRespond_cases env request line file with ⟨_, hnone⟩ | ⟨hclose, _⟩
      · exact absurd (hnone.symm.trans hresponse) (by simp)
      · exact ⟨q, hq, hopens hclose q ⟨file, hopened, hq⟩⟩

/-- Something outside the directory can be opened for a path exactly when the place it leads to
lets it out. -/
theorem exists_opens_outside_iff {filepath : Bytes} :
    (∃ q, Opens env dir (serverDetermineFile env.fs hconfig (render dir) filepath) q ∧
      ¬ dir <+: q) ↔ ∃ p, env.fs.find filepath = some p ∧ Escapes env hconfig dir p := by
  constructor
  · rintro ⟨q, hopens, hout⟩
    obtain ⟨p, hfind, hpass, hshows⟩ := opens_determineFile_iff.mp hopens
    exact ⟨p, hfind, (exists_shows_outside_iff (FileSystem.isPlace_of_find hfind) hpass).mp
      ⟨q, hshows, hout⟩⟩
  · rintro ⟨p, hfind, hescapes⟩
    have hpass := hescapes.accepted
    obtain ⟨q, hshows, hout⟩ :=
      (exists_shows_outside_iff (FileSystem.isPlace_of_find hfind) hpass).mpr hescapes
    exact ⟨q, opens_determineFile_iff.mpr ⟨p, hfind, hpass, hshows⟩, hout⟩

/-- What is shown for a request to a host lies in the directory of the host exactly when the
path of the request lets nothing out of it. -/
theorem showsInside_iff (hline : request.req = some line)
    (hhost : requestHost config request line = some (.ok hconfig))
    (hdir : hconfig.serveDir = some (render dir)) :
    ShowsInside env config request dir ↔
      (closesConnection request line ≠ none → ¬ RequestEscapes env hconfig line dir) := by
  unfold ShowsInside RequestEscapes serverProcessRequest requestTarget
  simp only [hline, hhost, Option.bind_some]
  rcases hpath : requestPath line with _ | refusal | uri
  · simp
  · constructor
    · rintro _ _ ⟨uri, p, huri, _⟩
      simp at huri
    · intro _ answer hanswer hcode
      obtain ⟨response, hresponse, rfl⟩ := Option.map_eq_some_iff.mp hanswer
      have hcode := (refuse_code hresponse).symm.trans hcode
      rcases requestPath_error hpath with hother | rfl
      · simp [hother] at hcode
      · simp at hcode
  · simp only [Option.bind_some, hdir, Option.map_some, cstr_render, serverAnswer_inside_iff]
    constructor
    · rintro hinside hclose ⟨uri', p, huri, hfind, hescapes⟩
      obtain rfl := Except.ok.inj (Option.some.inj huri)
      obtain ⟨q, hopens, hout⟩ := exists_opens_outside_iff.mpr ⟨p, hfind, hescapes⟩
      exact hout (hinside hclose q hopens)
    · intro hkeeps hclose q hopens
      by_contra hout
      obtain ⟨p, hfind, hescapes⟩ := exists_opens_outside_iff.mp ⟨q, hopens, hout⟩
      exact hkeeps hclose ⟨uri, p, rfl, hfind, hescapes⟩

/-- Every host that a configuration file makes a request find serves a canonical directory. -/
theorem requestHost_servesCanonical {fs : FileSystem} {machine : Bytes} {calls : List IniCall}
    (h : requestHost (configReadIni fs (configServerNew machine) calls) request line =
      some (.ok hconfig)) : hconfig.ServesCanonical := by
  have hnew : (configServerNew machine).AllCanonical := by simp [ConfigServer.AllCanonical,
    configServerNew]
  obtain ⟨hostname, _, hfound⟩ := Option.bind_eq_some_iff.mp h
  cases hostname with
  | error refusal => simp at hfound
  | ok hostname =>
    obtain ⟨host, hgethost, hhost⟩ := Option.map_eq_some_iff.mp hfound
    cases host with
    | none => simp at hhost
    | some host =>
      obtain rfl := Except.ok.inj hhost
      exact allCanonical_configReadIni fs calls hnew _ (configServerGethost_mem hgethost)

/-- A tree with a file in `/srv/www` and one in `/srv/www-secret` beside it. -/
def siblingNode (p : Place) : Option (FileNode UInt8) :=
  match p.map PathName.text with
  | [] => some (.directory [ascii ".", ascii "..", ascii "srv"])
  | [srv] =>
    if srv = ascii "srv" then
      some (.directory [ascii ".", ascii "..", ascii "www", ascii "www-secret"])
    else none
  | [srv, www] =>
    if srv = ascii "srv" ∧ www = ascii "www" then
      some (.directory [ascii ".", ascii "..", ascii "index.html"])
    else if srv = ascii "srv" ∧ www = ascii "www-secret" then
      some (.directory [ascii ".", ascii "..", ascii "x"])
    else none
  | [srv, www, file] =>
    if srv = ascii "srv" ∧ www = ascii "www" ∧ file = ascii "index.html" then some .regular
    else if srv = ascii "srv" ∧ www = ascii "www-secret" ∧ file = ascii "x" then some .regular
    else none
  | _ => none

/-- The file system with that tree. -/
def siblingFileSystem : FileSystem where
  tree := ⟨siblingNode, fun _ => true, [], .root (by decide)⟩
  openable := fun _ => true
  content := fun _ => ascii "x"
  mtime := fun _ => []

/-- A server over that file system. -/
def siblingEnv : ServerEnv := ⟨siblingFileSystem, none, none, [], fun _ => none⟩

/-- The directory `/srv/www`. -/
def siblingDir : Place := [⟨ascii "srv", by decide⟩, ⟨ascii "www", by decide⟩]

/-- A host that serves it. -/
def siblingHost : ConfigHost := { configHostNew with
  defaultHost := true, serveDir := some (ascii "/srv/www") }

/-- The configuration with that host. -/
def siblingConfig : ConfigServer := configServerAddhost (configServerNew []) siblingHost

/-- The line of a request for a target. -/
def siblingLine (uri : String) : HttpRequestLine := ⟨.methodGet, none, some (ascii uri), .http10⟩

/-- A request for a target. -/
def siblingRequest (uri : String) : HttpRequest :=
  { httpRequestNew with req := some (siblingLine uri) }

/-- The file inside the directory is shown, and it is what the request leads to. -/
theorem showsInside_indexHtml :
    ShowsInside siblingEnv siblingConfig (siblingRequest "/index.html") siblingDir := by
  have hhost : requestHost siblingConfig (siblingRequest "/index.html")
      (siblingLine "/index.html") = some (.ok siblingHost) := by rfl
  have hdir : siblingHost.serveDir = some (render siblingDir) := by decide
  apply (showsInside_iff rfl hhost hdir).mpr
  rintro _ ⟨uri, p, huri, hfind, hescapes⟩
  have hpath : requestPath (siblingLine "/index.html") = some (.ok (ascii "/index.html")) := by
    decide +kernel
  obtain rfl := Except.ok.inj (Option.some.inj (hpath.symm.trans huri))
  have hfile : siblingEnv.fs.find (render siblingDir ++ ascii "/index.html") =
      some (siblingDir ++ [⟨ascii "index.html", by decide⟩]) := by decide +kernel
  obtain rfl := Option.some.inj (hfile.symm.trans hfind)
  have hin : siblingDir <+: siblingDir ++ [⟨ascii "index.html", by decide⟩] :=
    List.prefix_append _ _
  cases hescapes with
  | file hshares | index hshares | listing hshares => exact hshares.not_below hin
  | link _ hnode =>
    have hregular : siblingEnv.fs.tree.node (siblingDir ++ [⟨ascii "index.html", by decide⟩]) =
        some .regular := by decide
    simp [hregular] at hnode

/-- A file beside the directory, whose path goes on where that of the directory ends, is shown. -/
theorem not_showsInside_sibling :
    requestHost siblingConfig (siblingRequest "/../www-secret/x")
        (siblingLine "/../www-secret/x") = some (.ok siblingHost) ∧
      siblingHost.serveDir = some (render siblingDir) ∧
      ¬ ShowsInside siblingEnv siblingConfig (siblingRequest "/../www-secret/x") siblingDir := by
  let secret : Place :=
    [⟨ascii "srv", by decide⟩, ⟨ascii "www-secret", by decide⟩, ⟨ascii "x", by decide⟩]
  have hanswer : (serverProcessRequest siblingEnv siblingConfig
      (siblingRequest "/../www-secret/x")).map (fun answer =>
        (answer.response.resp.code, answer.shown)) = some (200, some secret) := by decide +kernel
  refine ⟨rfl, by decide, ?_⟩
  intro hinside
  obtain ⟨answer, hsome, hpair⟩ := Option.map_eq_some_iff.mp hanswer
  obtain ⟨hcode, hshown⟩ := Prod.mk.inj hpair
  obtain ⟨q, hq, hin⟩ := hinside answer hsome hcode
  obtain rfl := Option.some.inj (hshown.symm.trans hq)
  exact absurd hin (by decide)

end Khttp
