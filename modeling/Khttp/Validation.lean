import Khttp.Containment

/-!
# What is checked before a request is answered

`server_process_request` makes its checks in a row, each with an early return. The result
of `http_parser_parse_url` is compared with zero by `<`, while the parser returns one for a
URI that it rejects, so that this check never fires.
-/

namespace Khttp

variable {env : ServerEnv} {config : ConfigServer} {request : HttpRequest}
  {line : HttpRequestLine} {hconfig : ConfigHost} {file : OpenedFile} {refusal : Refusal}

/-- The part of `server_process_request` up to the opened file. -/
def requestFile (env : ServerEnv) (config : ConfigServer) (request : HttpRequest)
    (line : HttpRequestLine) : Option (Except Refusal OpenedFile) :=
  (requestTarget config request line).bind fun
    | .error refusal => some (.error refusal)
    | .ok (hostConfig, serveDir, filepath) =>
      serverOpenFile env serveDir (serverDetermineFile env.fs hostConfig serveDir filepath)

/-- A request is answered by what its file is, or by what it is refused for. -/
theorem serverProcessRequest_of_requestFile (hline : request.req = some line) :
    serverProcessRequest env config request = (requestFile env config request line).bind fun
      | .error refusal => (refuse env refusal).map (⟨·, none⟩)
      | .ok file => (serverRespond env request line file).map (⟨·, file.shown⟩) := by
  rw [serverProcessRequest, hline, Option.bind_some, requestFile, Option.bind_assoc]
  congr 1
  funext target
  cases target with
  | error refusal => rfl
  | ok target => rfl

/-- A request that leads to a file is answered with it. -/
theorem serverProcessRequest_of_file (hline : request.req = some line)
    (hfile : requestFile env config request line = some (.ok file)) :
    serverProcessRequest env config request = (closesConnection request line).map fun close =>
      ⟨fileResponse env line file close, file.shown⟩ := by
  rw [serverProcessRequest_of_requestFile hline, hfile, Option.bind_some]
  simp only [serverRespond_eq_map, Option.map_map]
  rfl

/-- A request that leads to a refusal is answered with its page. -/
theorem serverProcessRequest_of_refusal (hline : request.req = some line)
    (hfile : requestFile env config request line = some (.error refusal)) :
    serverProcessRequest env config request = (refuse env refusal).map (⟨·, none⟩) := by
  rw [serverProcessRequest_of_requestFile hline, hfile]
  rfl

/-- The path that the parser finds in a URI. -/
def uriPath (uri : Bytes) : Bytes :=
  let path := (httpParserParseUrl (cstr uri) false).2.fieldData .path
  ((cstr uri).drop path.off.toNat).take path.len.toNat

/-- The parser finds a path in a URI. -/
def HasPath (uri : Bytes) : Prop :=
  ((httpParserParseUrl (cstr uri) false).2.fieldData .path).set = true

instance (uri : Bytes) : Decidable (HasPath uri) := instDecidableEqBool _ _

/-- The parser accepts a URI. -/
def AcceptsUri (uri : Bytes) : Prop := (httpParserParseUrl (cstr uri) false).1 = 0

instance (uri : Bytes) : Decidable (AcceptsUri uri) := Int.instDecidableEq _ _

/-- Every check of a request but that of the parser's verdict on its URI is passed: the host, and
the file that the lookup finds. -/
structure PassesOthers (env : ServerEnv) (config : ConfigServer) (request : HttpRequest)
    (line : HttpRequestLine) (uri : Bytes) (hconfig : ConfigHost) (file : OpenedFile) : Prop where
  /-- A host was resolved. -/
  host : requestHost config request line = some (.ok hconfig)
  /-- A request in version 1.1 names its host. -/
  hostHeader : line.version = .http11 →
    ∃ header, httpHeaderListGet request.headers headerHost = some header
  /-- The method is one of three. -/
  method : line.method ∈ [.methodGet, .methodHead, .methodPost]
  /-- The URI of the request. -/
  uri_eq : line.uri = some uri
  /-- The parser found a path in it. -/
  path : HasPath uri
  /-- The lookup found the file. -/
  lookup : ∃ serveDir, hconfig.serveDir = some serveDir ∧
    serverOpenFile env (cstr serveDir) (serverDetermineFile env.fs hconfig (cstr serveDir)
      (cstr serveDir ++ uriPath uri)) = some (.ok file)

/-- A path is found for the methods that are served. -/
theorem requestPath_eq_ok_iff {path : Bytes} :
    requestPath line = some (.ok path) ↔
      line.method ∈ [.methodGet, .methodHead, .methodPost] ∧
        ∃ uri, line.uri = some uri ∧ HasPath uri ∧ path = uriPath uri := by
  unfold requestPath
  by_cases hmethod : line.method ∈ [.methodGet, .methodHead, .methodPost]
  · rw [if_neg (not_not.mpr hmethod)]
    cases huri : line.uri with
    | none => simp
    | some uri =>
      have hnonneg : ¬ (httpParserParseUrl (cstr uri) false).1 < 0 :=
        not_lt.mpr (httpParserParseUrl_nonneg _ _)
      simp only [Option.map_some, if_neg hnonneg, Option.some.injEq, hmethod, true_and,
        exists_eq_left', HasPath]
      split
      · next hset => simp [hset, uriPath, eq_comm]
      · next hset => simp [hset]
  · simp [hmethod]

/-- The host of a request in version 1.1 is found by its header. -/
theorem exists_hostHeader (hversion : line.version = .http11)
    (hhost : requestHost config request line = some (.ok hconfig)) :
    ∃ header, httpHeaderListGet request.headers headerHost = some header := by
  unfold requestHost requestHostname at hhost
  rw [if_pos hversion] at hhost
  cases hget : httpHeaderListGet request.headers headerHost with
  | none => simp [hget] at hhost
  | some header => exact ⟨header, rfl⟩

/-- A file is opened for a request exactly when all checks but one are passed. -/
theorem requestFile_eq_ok_iff :
    requestFile env config request line = some (.ok file) ↔
      ∃ uri hconfig, PassesOthers env config request line uri hconfig file := by
  constructor
  · intro hfile
    obtain ⟨target, htarget, hopened⟩ := Option.bind_eq_some_iff.mp hfile
    cases target with
    | error refusal => simp at hopened
    | ok target =>
      obtain ⟨host, hhost, htarget⟩ := Option.bind_eq_some_iff.mp htarget
      cases host with
      | error refusal => simp at htarget
      | ok hconfig =>
        obtain ⟨path, hpath, htarget⟩ := Option.bind_eq_some_iff.mp htarget
        cases path with
        | error refusal => simp at htarget
        | ok path =>
          obtain ⟨serveDir, hdir, htarget⟩ := Option.map_eq_some_iff.mp htarget
          obtain rfl := Except.ok.inj htarget
          obtain ⟨hmethod, uri, huri, hset, rfl⟩ := requestPath_eq_ok_iff.mp hpath
          exact ⟨uri, hconfig, hhost, fun hversion => exists_hostHeader hversion hhost, hmethod,
            huri, hset, serveDir, hdir, hopened⟩
  · rintro ⟨uri, hconfig, hpasses⟩
    obtain ⟨serveDir, hdir, hopened⟩ := hpasses.lookup
    have hpath : requestPath line = some (.ok (uriPath uri)) :=
      requestPath_eq_ok_iff.mpr ⟨hpasses.method, uri, hpasses.uri_eq, hpasses.path, rfl⟩
    simp only [requestFile, requestTarget, hpasses.host, Option.bind_some, hpath, hdir,
      Option.map_some]
    exact hopened

/-- A host is missing for want of its header, or because the configuration has none. -/
theorem requestHost_error (h : requestHost config request line = some (.error refusal)) :
    (line.version = .http11 ∧ httpHeaderListGet request.headers headerHost = none ∧
      refusal = ⟨400, ascii "Host header required"⟩) ∨ refusal.code = 500 := by
  obtain ⟨hostname, hhostname, hhost⟩ := Option.bind_eq_some_iff.mp h
  cases hostname with
  | error other =>
    obtain rfl : other = refusal := Except.error.inj (Option.some.inj hhost)
    unfold requestHostname at hhostname
    split at hhostname
    · next hversion =>
      cases hget : httpHeaderListGet request.headers headerHost with
      | none =>
        rw [hget] at hhostname
        exact Or.inl ⟨hversion, rfl, (Except.error.inj (Option.some.inj hhostname)).symm⟩
      | some header => simp [hget] at hhostname
    · simp at hhostname
  | ok hostname =>
    obtain ⟨host, _, hhost⟩ := Option.map_eq_some_iff.mp hhost
    cases host with
    | none =>
      obtain rfl := Except.error.inj hhost
      exact Or.inr rfl
    | some host => simp at hhost

/-- What a request is refused for: its host, its path, or the file. -/
theorem requestFile_error (h : requestFile env config request line = some (.error refusal)) :
    requestHost config request line = some (.error refusal) ∨
    ((∃ hconfig, requestHost config request line = some (.ok hconfig)) ∧
      requestPath line = some (.error refusal)) ∨ refusal.code ∈ [403, 404, 500] := by
  obtain ⟨target, htarget, hopened⟩ := Option.bind_eq_some_iff.mp h
  cases target with
  | ok target => exact Or.inr (Or.inr (serverOpenFile_error hopened))
  | error other =>
    obtain rfl : other = refusal := Except.error.inj (Option.some.inj hopened)
    obtain ⟨host, hhost, htarget⟩ := Option.bind_eq_some_iff.mp htarget
    cases host with
    | error another =>
      obtain rfl := Except.error.inj (Option.some.inj htarget)
      exact Or.inl hhost
    | ok hconfig =>
      obtain ⟨path, hpath, htarget⟩ := Option.bind_eq_some_iff.mp htarget
      cases path with
      | error another =>
        obtain rfl := Except.error.inj (Option.some.inj htarget)
        exact Or.inr (Or.inl ⟨⟨hconfig, hhost⟩, hpath⟩)
      | ok path =>
        obtain ⟨_, _, hnone⟩ := Option.map_eq_some_iff.mp htarget
        simp at hnone

/-- Every refusal has the code of an error. -/
theorem code_of_requestFile_error
    (h : requestFile env config request line = some (.error refusal)) : 400 ≤ refusal.code := by
  rcases requestFile_error h with hhost | ⟨_, hpath⟩ | hcode
  · rcases requestHost_error hhost with ⟨_, _, rfl⟩ | hcode
    · decide
    · rw [hcode]
      decide
  · rcases requestPath_error hpath with hcode | rfl
    · rw [hcode]
      decide
    · decide
  · simp only [List.mem_cons, List.not_mem_nil, or_false] at hcode
    rcases hcode with hcode | hcode | hcode <;> rw [hcode] <;> decide

/-- An answer with an error page: exactly one header is about the connection and closes it, and
nothing of the served tree is in its body. -/
structure ServerAnswer.IsError (answer : ServerAnswer) : Prop where
  /-- The code is that of an error. -/
  code : 400 ≤ answer.response.resp.code
  /-- The connection is closed. -/
  closes : answer.response.headers.filter (fun header => cstr header.name == headerConnection) =
    [httpHeaderNew headerConnection (ascii "close")]
  /-- The body is a text. -/
  body : answer.response.body.type = .bodyString
  /-- No file was opened. -/
  shown : answer.shown = none

/-- A refusal is answered with an error page. -/
theorem isError_of_refuse {response : HttpResponse} (hcode : 400 ≤ refusal.code)
    (h : refuse env refusal = some response) : ServerAnswer.IsError ⟨response, none⟩ := by
  refine ⟨by rw [refuse_code h]; exact hcode, ?_, ?_, rfl⟩
  all_goals
    simp only [refuse, Option.bind_eq_bind, Option.bind_eq_some_iff, Option.some.injEq] at h
    obtain ⟨builtin, hbuiltin, headers, hheaders, rfl⟩ := h
  · obtain ⟨type, htype⟩ := httpResponseCreateBuiltin_headers hbuiltin
    obtain rfl := Option.some.inj hheaders
    have hother : (cstr (httpHeaderNew headerContentType (some type)).name == headerConnection) =
        false := by
      change (cstr (cstr headerContentType) == headerConnection) = false
      decide
    rw [htype, List.singleton_append, List.filter_cons_of_neg (by simp [hother])]
    decide
  · have hbody := httpResponseCreateBuiltin_body hbuiltin
    exact hbody

/-- A request can be refused exactly where the page to fill in is no empty text. -/
theorem exists_refuse_iff :
    (∃ response, refuse env refusal = some response) ↔
      ∀ page, env.errorPage = some page → strlen page ≠ 0 := by
  refine ⟨?_, fun hpage => exists_refuse hpage refusal⟩
  rintro ⟨response, hresponse⟩ page hpage hempty
  have hnone : httpResponseCreateBuiltin env.errorPage refusal.code (some refusal.errmsg) =
      none := by
    simp [httpResponseCreateBuiltin, hpage, builtinPage, httpResponseAppendBody, hempty,
      HttpBody.appendStr, HttpBody.setType, HttpBody.clear, httpResponseNew, httpHeaderListAdd,
      HttpBody.new]
  simp [refuse, hnone] at hresponse

/-- What the call of a request reads is there: no pointer it follows is null, and no array is read
past its end. -/
structure Answerable (env : ServerEnv) (config : ConfigServer) (request : HttpRequest)
    (line : HttpRequestLine) : Prop where
  /-- The header that names the host has a value. -/
  hostValue : line.version = .http11 → ∀ header,
    httpHeaderListGet request.headers headerHost = some header → header.content ≠ none
  /-- The hosts that are compared with the name have one. -/
  hostNames : ∀ name, requestHostname request line = some (.ok name) →
    configServerGethost config name ≠ none
  /-- The request has a target. -/
  target : ∀ hconfig, requestHost config request line = some (.ok hconfig) →
    line.method ∈ [.methodGet, .methodHead, .methodPost] → line.uri ≠ none
  /-- The host serves a directory. -/
  serveDir : ∀ hconfig path, requestHost config request line = some (.ok hconfig) →
    requestPath line = some (.ok path) → hconfig.serveDir ≠ none
  /-- The path leads to no special file, and the sizes in a listing have a unit. -/
  lookup : ∀ hconfig serveDir path, requestHost config request line = some (.ok hconfig) →
    requestPath line = some (.ok path) → hconfig.serveDir = some serveDir →
    serverOpenFile env (cstr serveDir)
      (serverDetermineFile env.fs hconfig (cstr serveDir) (cstr serveDir ++ path)) ≠ none
  /-- The page for a refusal is no empty text. -/
  page : ∀ refusal, requestFile env config request line = some (.error refusal) →
    ∀ page, env.errorPage = some page → strlen page ≠ 0
  /-- The wish of the client about the connection has a value. -/
  connection : ∀ file, requestFile env config request line = some (.ok file) → ∀ header,
    httpHeaderListGet request.headers headerConnection = some header → header.content ≠ none

/-- The host can be determined exactly where its name and those it is compared with are there. -/
theorem requestHost_ne_none_iff : requestHost config request line ≠ none ↔
    (line.version = .http11 → ∀ header,
      httpHeaderListGet request.headers headerHost = some header → header.content ≠ none) ∧
    ∀ name, requestHostname request line = some (.ok name) →
      configServerGethost config name ≠ none := by
  unfold requestHost requestHostname
  by_cases hversion : line.version = .http11
  · rw [if_pos hversion]
    cases hget : httpHeaderListGet request.headers headerHost with
    | none => simp
    | some header =>
      cases hcontent : header.content with
      | none => simp [hversion, hcontent]
      | some content => simp [hcontent]
  · simp [hversion]

/-- The path can be determined exactly where the URI is there. -/
theorem requestPath_ne_none_iff : requestPath line ≠ none ↔
    (line.method ∈ [.methodGet, .methodHead, .methodPost] → line.uri ≠ none) := by
  unfold requestPath
  by_cases hmethod : line.method ∈ [.methodGet, .methodHead, .methodPost]
  · rw [if_neg (not_not.mpr hmethod)]
    simp [hmethod]
  · simp [hmethod]

/-- The wish about the connection can be read exactly where it has a value. -/
theorem closesConnection_ne_none_iff : closesConnection request line ≠ none ↔
    ∀ header, httpHeaderListGet request.headers headerConnection = some header →
      header.content ≠ none := by
  unfold closesConnection
  cases hget : httpHeaderListGet request.headers headerConnection with
  | none => simp
  | some header => simp

/-- A request that reads nothing that is missing is led to a file or to a refusal. -/
theorem requestFile_ne_none (h : Answerable env config request line) :
    requestFile env config request line ≠ none := by
  have hhost := requestHost_ne_none_iff.mpr ⟨h.hostValue, h.hostNames⟩
  unfold requestFile requestTarget
  rcases hfound : requestHost config request line with _ | refusal | hconfig
  · exact absurd hfound hhost
  · simp
  · have hpath := requestPath_ne_none_iff.mpr (h.target hconfig hfound)
    rcases htarget : requestPath line with _ | refusal | path
    · exact absurd htarget hpath
    · simp
    · obtain ⟨serveDir, hdir⟩ :=
        Option.ne_none_iff_exists'.mp (h.serveDir hconfig path hfound htarget)
      have hlookup := h.lookup hconfig serveDir path hfound htarget hdir
      simpa [htarget, hdir] using hlookup

/-- A request is answered exactly where it reads nothing that is missing. -/
theorem exists_answer_iff (hline : request.req = some line) :
    (∃ answer, serverProcessRequest env config request = some answer) ↔
      Answerable env config request line := by
  rw [serverProcessRequest_of_requestFile hline]
  constructor
  · rintro ⟨answer, hanswer⟩
    obtain ⟨outcome, hfile, hanswer⟩ := Option.bind_eq_some_iff.mp hanswer
    have hsome := hfile
    obtain ⟨target, htarget, hopened⟩ := Option.bind_eq_some_iff.mp hfile
    obtain ⟨host, hhost, hrest⟩ := Option.bind_eq_some_iff.mp htarget
    have hreadable := requestHost_ne_none_iff.mp (by rw [hhost]; simp)
    refine ⟨hreadable.1, hreadable.2, ?_, ?_, ?_, ?_, ?_⟩
    · rintro hconfig hfound
      obtain rfl := Option.some.inj (hhost.symm.trans hfound)
      obtain ⟨path, hpath, _⟩ := Option.bind_eq_some_iff.mp hrest
      exact requestPath_ne_none_iff.mp (by rw [hpath]; simp)
    · rintro hconfig path hfound hpath
      obtain rfl := Option.some.inj (hhost.symm.trans hfound)
      intro hnone
      simp [hpath, hnone] at hrest
    · rintro hconfig serveDir path hfound hpath hdir hnone
      obtain rfl := Option.some.inj (hhost.symm.trans hfound)
      simp only [hpath, hdir, Option.bind_some, Option.map_some, Option.some.injEq] at hrest
      obtain rfl := hrest
      exact absurd (hnone.symm.trans hopened) (by simp)
    · rintro refusal hrefused
      obtain rfl := Option.some.inj (hsome.symm.trans hrefused)
      obtain ⟨response, hresponse, _⟩ := Option.map_eq_some_iff.mp hanswer
      exact exists_refuse_iff.mp ⟨response, hresponse⟩
    · rintro file hopened
      obtain rfl := Option.some.inj (hsome.symm.trans hopened)
      obtain ⟨response, hresponse, _⟩ := Option.map_eq_some_iff.mp hanswer
      apply closesConnection_ne_none_iff.mp
      intro hnone
      rcases serverRespond_cases env request line file with ⟨_, hnever⟩ | ⟨hclose, _⟩
      · simp [hnever] at hresponse
      · exact hclose hnone
  · intro h
    obtain ⟨outcome, houtcome⟩ := Option.ne_none_iff_exists'.mp (requestFile_ne_none h)
    cases outcome with
    | error refusal =>
      obtain ⟨response, hresponse⟩ := exists_refuse (h.page refusal houtcome) refusal
      exact ⟨⟨response, none⟩, by simp [houtcome, hresponse]⟩
    | ok file =>
      have hclose : closesConnection request line ≠ none :=
        closesConnection_ne_none_iff.mpr (h.connection file houtcome)
      rcases serverRespond_cases env request line file with ⟨hnone, _⟩ | ⟨_, response, hresponse, _⟩
      · exact absurd hnone hclose
      · exact ⟨⟨response, file.shown⟩, by simp [houtcome, hresponse]⟩

/-- The request is answered: with 200 only if every check is passed, the verdict of the parser
among them, and with an error page in every other case. -/
def AnswersAfterChecks (env : ServerEnv) (config : ConfigServer) (request : HttpRequest) : Prop :=
  ∃ line answer, request.req = some line ∧
    serverProcessRequest env config request = some answer ∧
    ((answer.response.resp.code = 200 ∧ ∃ uri hconfig file,
        PassesOthers env config request line uri hconfig file ∧ AcceptsUri uri) ∨
      answer.IsError)

/-- **When 200 comes after every check.** A request is answered with 200 only if all checks are
passed, and else with an error page, if and only if its call reads nothing that is missing and
its URI is not one that the parser rejects after it has found a path which leads to a file. -/
theorem answersAfterChecks_iff :
    AnswersAfterChecks env config request ↔
      ∃ line, request.req = some line ∧ Answerable env config request line ∧
        ∀ uri hconfig file, PassesOthers env config request line uri hconfig file →
          AcceptsUri uri := by
  constructor
  · rintro ⟨line, answer, hline, hanswer, hchecked⟩
    refine ⟨line, hline, (exists_answer_iff hline).mp ⟨answer, hanswer⟩, ?_⟩
    intro uri hconfig file hpasses
    have hfile := requestFile_eq_ok_iff.mpr ⟨uri, hconfig, hpasses⟩
    rw [serverProcessRequest_of_file hline hfile] at hanswer
    obtain ⟨close, _, rfl⟩ := Option.map_eq_some_iff.mp hanswer
    rcases hchecked with ⟨_, uri', _, _, hpasses', haccepts⟩ | herror
    · obtain rfl := Option.some.inj (hpasses'.uri_eq.symm.trans hpasses.uri_eq)
      exact haccepts
    · have hcode : (400 : UInt16) ≤ 200 := herror.code
      exact absurd hcode (by decide)
  · rintro ⟨line, hline, hanswerable, haccepts⟩
    obtain ⟨answer, hanswer⟩ := (exists_answer_iff hline).mpr hanswerable
    refine ⟨line, answer, hline, hanswer, ?_⟩
    rw [serverProcessRequest_of_requestFile hline] at hanswer
    obtain ⟨outcome, hfile, hanswer⟩ := Option.bind_eq_some_iff.mp hanswer
    cases outcome with
    | error refusal =>
      obtain ⟨response, hresponse, rfl⟩ := Option.map_eq_some_iff.mp hanswer
      exact Or.inr (isError_of_refuse (code_of_requestFile_error hfile) hresponse)
    | ok file =>
      obtain ⟨response, hresponse, rfl⟩ := Option.map_eq_some_iff.mp hanswer
      obtain ⟨uri, hconfig, hpasses⟩ := requestFile_eq_ok_iff.mp hfile
      obtain ⟨_, _, rfl⟩ := serverRespond_eq hresponse
      exact Or.inl ⟨rfl, uri, hconfig, file, hpasses, haccepts uri hconfig file hpasses⟩

/-- A file is answered after every check. -/
theorem answersAfterChecks_indexHtml :
    AnswersAfterChecks siblingEnv siblingConfig (siblingRequest "/index.html") := by
  have hsome : (serverProcessRequest siblingEnv siblingConfig
      (siblingRequest "/index.html")).isSome = true := by decide +kernel
  refine answersAfterChecks_iff.mpr ⟨siblingLine "/index.html", rfl, ?_, ?_⟩
  · exact (exists_answer_iff rfl).mp (Option.isSome_iff_exists.mp hsome)
  · intro uri hconfig file hpasses
    obtain rfl : ascii "/index.html" = uri := Option.some.inj hpasses.uri_eq
    decide +kernel

/-- A URI whose port is too large is rejected by the parser, which has found the path by then, and
the file there is answered with 200. -/
theorem not_answersAfterChecks_port :
    ¬ AnswersAfterChecks siblingEnv siblingConfig
      (siblingRequest "http://a:70000/index.html") := by
  rintro ⟨line, answer, hline, hanswer, hchecked⟩
  have hcode : (serverProcessRequest siblingEnv siblingConfig
      (siblingRequest "http://a:70000/index.html")).map (·.response.resp.code) = some 200 := by
    decide +kernel
  rw [hanswer, Option.map_some, Option.some.injEq] at hcode
  rcases hchecked with ⟨_, uri, hconfig, file, hpasses, haccepts⟩ | herror
  · obtain rfl : siblingLine "http://a:70000/index.html" = line := Option.some.inj hline
    obtain rfl : ascii "http://a:70000/index.html" = uri := Option.some.inj hpasses.uri_eq
    have hrejects : ¬ AcceptsUri (ascii "http://a:70000/index.html") := by decide +kernel
    exact hrejects haccepts
  · have herror := herror.code
    rw [hcode] at herror
    exact absurd herror (by decide)

end Khttp
