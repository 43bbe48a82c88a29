import Khttp.Config
import Khttp.Http
import Khttp.UrlParser

/-!
# Answering a request

`http-server.c` and the part of `mime.c` that it uses: the host and the path of a
request, the file that the path stands for, the page that lists a directory, and the
response. A call has no result where the code reads through a null pointer or
outside an array.
-/

namespace Khttp

open Lib

/-- `mime_type`. -/
structure MimeType where
  /-- The type. -/
  mime : Bytes
  /-- The extension of the files of the type. -/
  extension : Bytes
  deriving DecidableEq, Repr

/-- What `server_process_request` reads besides its arguments. -/
structure ServerEnv where
  /-- The file system. -/
  fs : FileSystem
  /-- The file `error.html`, if it can be mapped. -/
  errorPage : Option Bytes
  /-- The file `dirindex.html`, if it can be mapped. -/
  dirindexPage : Option Bytes
  /-- `mime_list`. -/
  mimeList : List MimeType
  /-- The type that the magic library gives a file. -/
  magicFile : Bytes → Option Bytes

/-- `strrchr`. -/
def strrchr (c : UInt8) (str : Bytes) : Option Bytes :=
  if c ∈ cstr str then some (c :: ((cstr str).reverse.takeWhile (· ≠ c)).reverse) else none

/-- `mime_list_get_type`. -/
def mimeListGetType (list : List MimeType) (magicFile : Bytes → Option Bytes)
    (filename fallback : Bytes) : Bytes :=
  let known := (strrchr (byte '.') filename).bind fun ext =>
    if ext.length > 1 then list.find? fun elem => ext.tail == cstr elem.extension else none
  match known with
  | some elem => elem.mime
  | none => (magicFile filename).getD fallback

/-- `mime_get_type`: the server asks for types in `mime_list`. -/
def mimeGetType (env : ServerEnv) (filename fallback : Bytes) : Bytes :=
  mimeListGetType env.mimeList env.magicFile filename fallback

/-- `basename`. -/
def basename (path : Bytes) : Bytes :=
  ((strrchr (byte '/') path).map List.tail).getD (cstr path)

/-- `strncmp(a, b, n) == 0`. -/
def strneq (a b : Bytes) (n : ℕ) : Bool := (cstr a).take n == (cstr b).take n

/-- `server_file_result`. -/
structure ServerFileResult where
  /-- Whether no file was found. -/
  error : Bool
  /-- The status code of the error. -/
  errorCode : UInt16
  /-- The text of the error, `none` when null. -/
  errorText : Option Bytes
  /-- Whether the directory is listed. -/
  dir : Bool
  /-- The file or directory, `none` when null. -/
  path : Option Bytes
  deriving DecidableEq, Repr

/-- `server_file_result_new`. -/
def serverFileResultNew : ServerFileResult := ⟨false, 0, none, false, none⟩

/-- `server_file_result_seterror`. -/
def serverFileResultSeterror (result : ServerFileResult) (code : UInt16) (message : Bytes) :
    ServerFileResult :=
  { result with error := true, errorCode := code, errorText := some message }

/-- A path and an entry of the directory there. -/
def entryPath (path entry : Bytes) : Bytes := cstr path ++ ascii "/" ++ cstr entry

/-- The entry that `server_find_directory_index` stops at. -/
def directoryIndexEntry (hconfig : ConfigHost) (entries : List Bytes) : Option Bytes :=
  entries.find? fun entry => hconfig.indexFiles.any (strcaseeq entry)

/-- `server_find_directory_index`. -/
def serverFindDirectoryIndex (fs : FileSystem) (hconfig : ConfigHost) (path : Bytes) :
    Option Bytes :=
  (fs.opendir path).bind fun entries =>
    (directoryIndexEntry hconfig entries).map (entryPath path)

/-- The branch of `server_determine_file` for a directory. -/
def serverDetermineDirectory (fs : FileSystem) (hconfig : ConfigHost) (filepathActual : Bytes) :
    ServerFileResult :=
  match serverFindDirectoryIndex fs hconfig filepathActual with
  | some dirIndex => { serverFileResultNew with path := some dirIndex }
  | none =>
    if hconfig.dirListings then
      { serverFileResultNew with dir := true, path := some filepathActual }
    else serverFileResultSeterror serverFileResultNew 403
      (ascii "No index file was found and directory indexes are disabled")

/-- The result of `server_determine_file` for a path that it refuses. -/
def serverFileNotFound : ServerFileResult :=
  serverFileResultSeterror serverFileResultNew 404 (ascii "File not found")

/-- The part of `server_determine_file` that follows the call of `stat`. -/
def serverDetermineStat (fs : FileSystem) (hconfig : ConfigHost) (filepathActual : Bytes) :
    Option (FileNode UInt8) → ServerFileResult
  | none => serverFileNotFound
  | some (.directory _) => serverDetermineDirectory fs hconfig filepathActual
  | some .regular => { serverFileResultNew with path := some filepathActual }
  | some _ => serverFileResultNew

/-- `server_determine_file`, for a host that serves a directory. -/
def serverDetermineFile (fs : FileSystem) (hconfig : ConfigHost) (serveDir requestedPath : Bytes) :
    ServerFileResult :=
  match fs.realpath requestedPath with
  | none => serverFileNotFound
  | some filepathActual =>
    if strneq serveDir filepathActual (strlen serveDir) then
      serverDetermineStat fs hconfig filepathActual (fs.stat filepathActual)
    else serverFileNotFound

/-- The loop of `server_get_filesize`, for so many rounds. -/
def filesizeLoop : ℕ → ℕ → ℕ → ℕ × ℕ
  | 0, size, sizeI => (size, sizeI)
  | rounds + 1, size, sizeI =>
    if size > 1024 then filesizeLoop rounds (size / 1024) (sizeI + 1) else (size, sizeI)

/-- `server_get_filesize`. The loop ends after `size_i` exceeds the number of names by one,
so that the name may be read outside the array. -/
def serverGetFilesize (fs : FileSystem) (filename : Bytes) : Option (Option Bytes) :=
  match fs.fopen filename with
  | none => some none
  | some file =>
    let sizenames := ["b", "kb", "mb", "gb", "pb"]
    let (size, sizeI) := filesizeLoop (sizenames.length + 1) (fs.content file).length 0
    (sizenames[sizeI]?).map fun name => some (decimal size ++ ascii name)

/-- The link of a listed file: the served directory is cut out of its path, then the first
byte, which the code sets to a slash while it means to test for one. -/
def listedUri (serveDir filepath : Bytes) : Option Bytes :=
  match strReplace filepath serveDir [] with
  | [] => none
  | _ :: uri => some uri

/-- The row of a directory entry in `server_generate_directory_index`; nothing for an entry
that is skipped. -/
def directoryIndexRow (fs : FileSystem) (serveDir dirpath entry : Bytes) : Option Bytes :=
  let filepath := entryPath dirpath entry
  let row (filesize : Option Bytes) : Option Bytes := do
    let uri ← listedUri serveDir filepath
    some (ascii "<tr><td><a href=\"" ++ uri ++ ascii "\">" ++ basename uri ++
      ascii "</a></td><td>" ++ filesize.getD (ascii "N/A") ++ ascii "</td><td>" ++
      ((fs.find filepath).map fs.mtime).getD [] ++ ascii "</td></tr>\r\n")
  match fs.stat filepath with
  | some (.directory _) => row (some (ascii "[DIR]"))
  | some .regular => (serverGetFilesize fs filepath).bind row
  | _ => some []

/-- `server_generate_directory_index`: the contents of the temporary file, `none` inside for
the null pointer. -/
def serverGenerateDirectoryIndex (env : ServerEnv) (serveDir dirpath : Bytes) :
    Option (Option Bytes) :=
  match env.fs.opendir dirpath with
  | none => some none
  | some entries => do
    let rows ← (entries.take (1024 * 8 + 1)).mapM (directoryIndexRow env.fs serveDir dirpath)
    let dirname := strReplace dirpath serveDir []
    some (env.dirindexPage.map fun dirindex =>
      strReplace (strReplace dirindex (ascii "\x7b\x7bdirname\x7d\x7d") dirname)
        (ascii "\x7b\x7bindex\x7d\x7d") rows.flatten)

/-- An answer that is an error page. -/
structure Refusal where
  /-- The status code. -/
  code : UInt16
  /-- The message. -/
  errmsg : Bytes
  deriving DecidableEq, Repr

/-- The part of `server_process_request` that determines the host name. -/
def requestHostname (request : HttpRequest) (line : HttpRequestLine) :
    Option (Except Refusal (Option Bytes)) :=
  if line.version = .http11 then
    match httpHeaderListGet request.headers headerHost with
    | some hostheader => hostheader.content.map fun content => .ok (some (cstr content))
    | none => some (.error ⟨400, ascii "Host header required"⟩)
  else some (.ok none)

/-- The part of `server_process_request` that determines the host. -/
def requestHost (config : ConfigServer) (request : HttpRequest) (line : HttpRequestLine) :
    Option (Except Refusal ConfigHost) :=
  (requestHostname request line).bind fun
    | .error refusal => some (.error refusal)
    | .ok hostname =>
      (configServerGethost config hostname).map fun
        | some hostConfig => .ok hostConfig
        | none => .error
          ⟨500, ascii "Server configuration error. Host not provided and default not found."⟩

/-- The part of `server_process_request` that validates the method and parses the URI: the
path in it. -/
def requestPath (line : HttpRequestLine) : Option (Except Refusal Bytes) :=
  if line.method ∉ [.methodGet, .methodHead, .methodPost] then
    some (.error ⟨411, ascii "Method is not valid"⟩)
  else line.uri.map fun uri =>
    let (result, url) := httpParserParseUrl (cstr uri) false
    let path := url.fieldData .path
    if result < 0 then .error ⟨400, ascii "Invalid request"⟩
    else if path.set then .ok (((cstr uri).drop path.off.toNat).take path.len.toNat)
    else .error ⟨400, ascii "URI is required or was invalid"⟩

/-- The part of `server_process_request` up to the path of the requested file: the host, the
directory it serves and that path. -/
def requestTarget (config : ConfigServer) (request : HttpRequest) (line : HttpRequestLine) :
    Option (Except Refusal (ConfigHost × Bytes × Bytes)) :=
  (requestHost config request line).bind fun
    | .error refusal => some (.error refusal)
    | .ok hostConfig =>
      (requestPath line).bind fun
        | .error refusal => some (.error refusal)
        | .ok uri => hostConfig.serveDir.map fun serveDir =>
          .ok (hostConfig, cstr serveDir, cstr serveDir ++ uri)

/-- The stream that a response is read from. -/
structure OpenedFile where
  /-- The name it was opened by, `none` for the page that lists a directory. -/
  filepath : Option Bytes
  /-- The bytes it delivers. -/
  content : Bytes
  /-- The file, or the directory that is listed. -/
  shown : Option Place

/-- The part of `server_process_request` that opens the file. -/
def serverOpenFile (env : ServerEnv) (serveDir : Bytes) (result : ServerFileResult) :
    Option (Except Refusal OpenedFile) :=
  if result.error then some (.error ⟨result.errorCode, result.errorText.getD []⟩)
  else result.path.bind fun path =>
    if result.dir then
      (serverGenerateDirectoryIndex env serveDir path).map fun
        | none => .error ⟨500, ascii "Failed to generate directory index"⟩
        | some page => .ok ⟨none, page, env.fs.find path⟩
    else
      match env.fs.fopen path with
      | none => some (.error ⟨404, ascii "File not found"⟩)
      | some file => some (.ok ⟨some path, env.fs.content file, some file⟩)

/-- Whether the response closes the connection. -/
def closesConnection (request : HttpRequest) (line : HttpRequestLine) : Option Bool :=
  match httpHeaderListGet request.headers headerConnection with
  | none => some (line.version = .http10)
  | some requestConnection => requestConnection.content.map fun content =>
    strcaseeq content (ascii "close") ||
      (line.version = .http10 && !strcaseeq content (ascii "Keep-Alive"))

/-- The part of `server_process_request` that makes the response. -/
def serverRespond (env : ServerEnv) (request : HttpRequest) (line : HttpRequestLine)
    (file : OpenedFile) : Option HttpResponse := do
  let response := httpResponseNew { httpResponseLineNew 200 with version := line.version }
  let mimeType := match file.filepath with
    | some filepath => mimeGetType env filepath defaultContentType
    | none => ascii "text/html"
  let headers ← httpHeaderListAdd response.headers (httpHeaderNew headerContentType mimeType) false
  let body :=
    if line.method = .methodHead then response.body.setType .bodyNone
    else { response.body.setType .bodyFile with data := some file.content }
  let close ← closesConnection request line
  let headers ←
    if close then httpHeaderListAdd headers (httpHeaderNew headerConnection (ascii "close")) false
    else some headers
  some { response with headers, body }

/-- A response from `http_response_create_builtin` that closes the connection. -/
def refuse (env : ServerEnv) (refusal : Refusal) : Option HttpResponse := do
  let response ← httpResponseCreateBuiltin env.errorPage refusal.code (some refusal.errmsg)
  let headers ←
    httpHeaderListAdd response.headers (httpHeaderNew headerConnection (ascii "close")) false
  some { response with headers }

/-- A response, and the file or directory that it shows. -/
structure ServerAnswer where
  /-- The response. -/
  response : HttpResponse
  /-- What the response was read from. -/
  shown : Option Place

/-- The part of `server_process_request` after the path of the requested file. -/
def serverAnswer (env : ServerEnv) (request : HttpRequest) (line : HttpRequestLine)
    (hostConfig : ConfigHost) (serveDir filepath : Bytes) : Option ServerAnswer :=
  (serverOpenFile env serveDir (serverDetermineFile env.fs hostConfig serveDir filepath)).bind fun
    | .error refusal => (refuse env refusal).map (⟨·, none⟩)
    | .ok file => (serverRespond env request line file).map (⟨·, file.shown⟩)

/-- `server_process_request`. -/
def serverProcessRequest (env : ServerEnv) (config : ConfigServer) (request : HttpRequest) :
    Option ServerAnswer :=
  request.req.bind fun line =>
    (requestTarget config request line).bind fun
      | .error refusal => (refuse env refusal).map (⟨·, none⟩)
      | .ok (hostConfig, serveDir, filepath) =>
        serverAnswer env request line hostConfig serveDir filepath

/-- A refusal is a new response for its status code, with headers and a body. -/
theorem refuse_eq {env : ServerEnv} {refusal : Refusal} {response : HttpResponse}
    (h : refuse env refusal = some response) :
    ∃ headers body,
      response = { httpResponseNew (httpResponseLineNew refusal.code) with headers, body } := by
  simp only [refuse, Option.bind_eq_bind, Option.bind_eq_some_iff, Option.some.injEq] at h
  obtain ⟨builtin, hbuiltin, headers, _, rfl⟩ := h
  obtain ⟨_, body, rfl⟩ := httpResponseCreateBuiltin_eq hbuiltin
  exact ⟨headers, body, rfl⟩

/-- A request can be refused unless the page to fill in is an empty text. -/
theorem exists_refuse {env : ServerEnv}
    (hpage : ∀ page, env.errorPage = some page → strlen page ≠ 0) (refusal : Refusal) :
    ∃ response, refuse env refusal = some response := by
  obtain ⟨builtin, hbuiltin⟩ :=
    exists_httpResponseCreateBuiltin hpage refusal.code (some refusal.errmsg)
  rw [refuse, hbuiltin]
  exact ⟨_, rfl⟩

/-- The headers of the response that delivers a file. -/
def fileHeaders (env : ServerEnv) (file : OpenedFile) (close : Bool) : List HttpHeader :=
  let mimeType : Bytes := match file.filepath with
    | some filepath => mimeGetType env filepath defaultContentType
    | none => ascii "text/html"
  httpHeaderNew headerContentType mimeType ::
    if close then [httpHeaderNew headerConnection (ascii "close")] else []

/-- The response that delivers a file. -/
def fileResponse (env : ServerEnv) (line : HttpRequestLine) (file : OpenedFile) (close : Bool) :
    HttpResponse :=
  { httpResponseNew { httpResponseLineNew 200 with version := line.version } with
    headers := fileHeaders env file close
    body := if line.method = .methodHead then .new .bodyNone none
      else .new .bodyFile (some file.content) }

/-- A file is delivered once it is known whether the connection is closed. -/
theorem serverRespond_eq_map (env : ServerEnv) (request : HttpRequest) (line : HttpRequestLine)
    (file : OpenedFile) :
    serverRespond env request line file =
      (closesConnection request line).map (fileResponse env line file) := by
  unfold serverRespond
  cases hclose : closesConnection request line with
  | none => rfl
  | some close =>
    obtain ⟨filepath, content, shown⟩ := file
    cases filepath <;> cases close <;> rfl

/-- A file is answered with 200 in the version of the request. -/
theorem serverRespond_eq {env : ServerEnv} {request : HttpRequest} {line : HttpRequestLine}
    {file : OpenedFile} {response : HttpResponse}
    (h : serverRespond env request line file = some response) :
    ∃ headers body, response =
      { httpResponseNew { httpResponseLineNew 200 with version := line.version } with
        headers, body } := by
  rw [serverRespond_eq_map] at h
  obtain ⟨close, _, rfl⟩ := Option.map_eq_some_iff.mp h
  exact ⟨_, _, rfl⟩

/-- Every answer is a new response in version 1.1 or in the version of the request, with headers
and a body. -/
theorem serverProcessRequest_eq {env : ServerEnv} {config : ConfigServer} {request : HttpRequest}
    {line : HttpRequestLine} {answer : ServerAnswer} (hline : request.req = some line)
    (h : serverProcessRequest env config request = some answer) :
    ∃ resp headers body, answer.response = { httpResponseNew resp with headers, body } ∧
      (resp.version = .http11 ∨ resp.version = line.version) := by
  have hrefused {refusal : Refusal} {answer : ServerAnswer}
      (h : (refuse env refusal).map (⟨·, none⟩) = some answer) :
      ∃ resp headers body, answer.response = { httpResponseNew resp with headers, body } ∧
        (resp.version = .http11 ∨ resp.version = line.version) := by
    obtain ⟨response, hresponse, rfl⟩ := Option.map_eq_some_iff.mp h
    obtain ⟨headers, body, rfl⟩ := refuse_eq hresponse
    exact ⟨_, headers, body, rfl, Or.inl rfl⟩
  rw [serverProcessRequest, hline, Option.bind_some] at h
  obtain ⟨target, _, h⟩ := Option.bind_eq_some_iff.mp h
  cases target with
  | error refusal => exact hrefused h
  | ok target =>
    obtain ⟨file, _, h⟩ := Option.bind_eq_some_iff.mp h
    cases file with
    | error refusal => exact hrefused h
    | ok file =>
      obtain ⟨response, hresponse, rfl⟩ := Option.map_eq_some_iff.mp h
      obtain ⟨headers, body, rfl⟩ := serverRespond_eq hresponse
      exact ⟨_, headers, body, rfl, Or.inr rfl⟩

end Khttp
