import Khttp.HttpBody

/-!
# Requests, responses and their heads

`http.c`: the message records, the header list with the vendored array operations
it is built on, and the text of a response head.
-/

namespace Khttp

/-- `http_version`. -/
inductive HttpVersion where
  | http10
  | http11
  | httpxx
  deriving DecidableEq, Repr

/-- `http_request_method`. -/
inductive HttpRequestMethod where
  | methodGet
  | methodPost
  | methodHead
  | methodPut
  | methodDelete
  | methodOptions
  | methodTrace
  | methodConnect
  | methodOther
  | methodInvalid
  deriving DecidableEq, Repr

/-- `http_request_line`. -/
structure HttpRequestLine where
  /-- The parsed method. -/
  method : HttpRequestMethod
  /-- The text of a method of type `METHOD_OTHER`. -/
  methodOther : Option Bytes
  /-- The request target, `none` when null. -/
  uri : Option Bytes
  /-- The protocol version. -/
  version : HttpVersion
  deriving DecidableEq, Repr

/-- `http_response_line`. -/
structure HttpResponseLine where
  /-- The protocol version. -/
  version : HttpVersion
  /-- The status code. -/
  code : UInt16
  /-- A message in the place of the standard one. -/
  customMessage : Option Bytes
  deriving DecidableEq, Repr

/-- `http_header`. -/
structure HttpHeader where
  /-- The field name. -/
  name : Bytes
  /-- The field value, `none` when null. -/
  content : Option Bytes
  deriving DecidableEq, Repr

/-- `http_request`. -/
structure HttpRequest where
  /-- The request line, once it is known. -/
  req : Option HttpRequestLine
  /-- The header list. -/
  headers : List HttpHeader
  /-- The body. -/
  body : HttpBody
  deriving DecidableEq, Repr

/-- `http_response_send_status`. -/
inductive HttpResponseSendStatus where
  | sendResponseLine
  | sendHeaders
  | sendBody
  | sendDone
  deriving DecidableEq, Repr

/-- `http_response`. -/
structure HttpResponse where
  /-- The status line. -/
  resp : HttpResponseLine
  /-- The header list. -/
  headers : List HttpHeader
  /-- Whether the body is sent in chunks. -/
  bodyChunked : Bool
  /-- The body. -/
  body : HttpBody
  /-- How far the response has been sent. -/
  sendStatus : HttpResponseSendStatus
  deriving DecidableEq, Repr

/-- `HEADER_CONTENT_TYPE`. -/
def headerContentType : Bytes := ascii "Content-Type"

/-- `HEADER_CONTENT_LENGTH`. -/
def headerContentLength : Bytes := ascii "Content-Length"

/-- `HEADER_SERVER`. -/
def headerServer : Bytes := ascii "Server"

/-- `HEADER_HOST`. -/
def headerHost : Bytes := ascii "Host"

/-- `HEADER_TRANSFER_ENCODING`. -/
def headerTransferEncoding : Bytes := ascii "Transfer-Encoding"

/-- `HEADER_DATE`. -/
def headerDate : Bytes := ascii "Date"

/-- `HEADER_CONNECTION`. -/
def headerConnection : Bytes := ascii "Connection"

/-- `DEFAULT_CONTENT_TYPE`. -/
def defaultContentType : Bytes := ascii "text/plain"

/-- `SERVER_NAME`. -/
def serverName : Bytes := ascii "KHTTP/0.1"

/-- `http_method_getstring` for the methods that have a fixed text. -/
def httpMethodGetstring : HttpRequestMethod → Option Bytes
  | .methodGet => some (ascii "GET")
  | .methodPost => some (ascii "POST")
  | .methodHead => some (ascii "HEAD")
  | .methodPut => some (ascii "PUT")
  | .methodDelete => some (ascii "DELETE")
  | .methodOptions => some (ascii "OPTIONS")
  | .methodTrace => some (ascii "TRACE")
  | .methodConnect => some (ascii "CONNECT")
  | .methodInvalid => some (ascii "<INVALID>")
  | .methodOther => none

/-- `http_method_fromstring`: the first of the listed methods with this text. -/
def httpMethodFromstring (method : Bytes) : HttpRequestMethod :=
  let methods := [.methodGet, .methodPost, .methodHead, .methodPut, .methodDelete,
    .methodOptions, .methodTrace, .methodConnect]
  (methods.find? fun m => httpMethodGetstring m == some (cstr method)).getD .methodInvalid

/-- `http_request_line_new`. -/
def httpRequestLineNew (method : HttpRequestMethod) (other : Option Bytes) :
    Option HttpRequestLine :=
  match method, other with
  | .methodOther, none => none
  | .methodOther, some other => some ⟨.methodOther, some (cstr other), none, .httpxx⟩
  | method, _ => some ⟨method, none, none, .httpxx⟩

/-- `http_response_line_new`. -/
def httpResponseLineNew (code : UInt16) : HttpResponseLine := ⟨.http11, code, none⟩

/-- The standard messages of `http_response_line_get_message`. -/
def standardMessage (code : ℕ) : String :=
  match code with
  | 100 => "Continue"
  | 101 => "Switching Protocols"
  | 200 => "OK"
  | 201 => "Created"
  | 202 => "Accepted"
  | 203 => "Non-Authoritative Information"
  | 204 => "No Content"
  | 205 => "Reset Content"
  | 206 => "Partial Content"
  | 300 => "Multiple Choices"
  | 301 => "Moved Permanently"
  | 302 => "Found"
  | 303 => "See Other"
  | 304 => "Not Modified"
  | 305 => "Use Proxy"
  | 307 => "Temporary Redirect"
  | 400 => "Bad Request"
  | 401 => "Unauthorized"
  | 403 => "Forbidden"
  | 404 => "Not Found"
  | 405 => "Method Not Allowed"
  | 406 => "Not Acceptable"
  | 407 => "Proxy Authentication Required"
  | 408 => "Request Timeout"
  | 409 => "Conflict"
  | 410 => "Gone"
  | 411 => "Length Required"
  | 412 => "Precondition Failed"
  | 413 => "Request Entity Too Large"
  | 414 => "Request-URI Too Long"
  | 415 => "Unsupported Media Type"
  | 416 => "Requested Range Not Satisfiable"
  | 417 => "Expectation Failed"
  | 500 => "Internal Server Error"
  | 501 => "Not Implemented"
  | 502 => "Bad Gateway"
  | 503 => "Service Unavailable"
  | 504 => "Gateway Timeout"
  | 505 => "HTTP Version Not Supported"
  | _ => ""

/-- `http_response_line_get_message`. -/
def httpResponseLineGetMessage (resp : HttpResponseLine) : Bytes :=
  match resp.customMessage with
  | some message => message
  | none => ascii (standardMessage resp.code.toNat)

/-- `http_header_append_content`. -/
def httpHeaderAppendContent (header : HttpHeader) (content : Bytes) : HttpHeader :=
  { header with content := some (cstr (header.content.getD []) ++ cstr content) }

/-- `http_header_new`. -/
def httpHeaderNew (name : Bytes) (content : Option Bytes) : HttpHeader :=
  match content with
  | none => ⟨cstr name, none⟩
  | some content => httpHeaderAppendContent ⟨cstr name, none⟩ content

/-- `http_header_list_get`. -/
def httpHeaderListGet (list : List HttpHeader) (name : Bytes) : Option HttpHeader :=
  if strlen name = 0 then none else list.find? fun elem => cstr elem.name == cstr name

/-- `http_header_list_getall`: the positions of the elements that the pointers it
returns lead to. -/
def httpHeaderListGetall (list : List HttpHeader) (name : Bytes) : List ℕ :=
  list.findIdxs fun elem => cstr elem.name == cstr name

/-- `utarray_erase` of one element. Past the end of the array the destructor is
called on the null pointer. -/
def utarrayErase (list : List HttpHeader) (pos : ℕ) : Option (List HttpHeader) :=
  if pos < list.length then some (list.eraseIdx pos) else none

/-- `http_header_list_remove`: the positions were taken before the first erasure. -/
def httpHeaderListRemove (list : List HttpHeader) (name : Bytes) : Option (List HttpHeader) :=
  (httpHeaderListGetall list name).foldlM utarrayErase list

/-- `http_header_list_add`. -/
def httpHeaderListAdd (list : List HttpHeader) (header : HttpHeader) (replace : Bool) :
    Option (List HttpHeader) :=
  if replace then (httpHeaderListRemove list header.name).map (· ++ [header])
  else some (list ++ [header])

/-- `http_request_new`. -/
def httpRequestNew : HttpRequest := ⟨none, [], .new .bodyNone none⟩

/-- `http_request_append_body`. -/
def httpRequestAppendBody (req : HttpRequest) (body : Bytes) : Option HttpRequest :=
  (req.body.appendStr body (strlen body)).map fun body => { req with body }

/-- `http_response_new`. -/
def httpResponseNew (resp : HttpResponseLine) : HttpResponse :=
  ⟨resp, [], false, .new .bodyNone none, .sendResponseLine⟩

/-- `http_response_append_body`. -/
def httpResponseAppendBody (resp : HttpResponse) (body : Bytes) : Option HttpResponse :=
  (resp.body.appendStr body (strlen body)).map fun body => { resp with body }

/-- `"%s: %s\r\n"` of a header; the null pointer prints as `(null)`. -/
def headerLine (elem : HttpHeader) : Bytes :=
  cstr elem.name ++ ascii ": " ++ cstr (elem.content.getD (ascii "(null)")) ++ ascii "\r\n"

/-- The status line of `http_response_write`. -/
def statusLine (resp : HttpResponseLine) : Bytes :=
  (match resp.version with
    | .http10 => ascii "HTTP/1.0 "
    | .http11 => ascii "HTTP/1.1 "
    | .httpxx => []) ++
  decimal resp.code.toNat ++ ascii " " ++ cstr (httpResponseLineGetMessage resp) ++ ascii "\r\n"

/-- The header that `http_response_write` adds about the extent of the body. The
length is stored in 32 bits. -/
def lengthHeader (resp : HttpResponse) : HttpHeader :=
  if resp.bodyChunked then httpHeaderNew headerTransferEncoding (ascii "chunked")
  else httpHeaderNew headerContentLength (decimal (resp.body.len % 2 ^ 32))

/-- The header list that `http_response_write` prints: nothing is added to an
interim response. -/
def httpResponseHeaders (date : Bytes) (resp : HttpResponse) : Option (List HttpHeader) :=
  if resp.resp.code ≠ 100 then do
    let headers ← httpHeaderListAdd resp.headers (lengthHeader resp) true
    let headers ← (httpHeaderListGet headers headerContentType).elim
      (httpHeaderListAdd headers (httpHeaderNew headerContentType defaultContentType) false)
      fun _ => some headers
    let headers ← httpHeaderListAdd headers (httpHeaderNew headerDate date) true
    httpHeaderListAdd headers (httpHeaderNew headerServer serverName) true
  else some resp.headers

/-- `http_response_write` at a time whose `strftime` text is `date`. The string is
null where the head has been made before. -/
def httpResponseWrite (date : Bytes) (resp : HttpResponse) :
    Option (HttpResponse × Option Bytes) :=
  match resp.sendStatus with
  | .sendBody | .sendDone => some (resp, none)
  | .sendResponseLine | .sendHeaders => do
    let output := if resp.sendStatus = .sendResponseLine then statusLine resp.resp else []
    let headers ← httpResponseHeaders date resp
    some ({ resp with headers, sendStatus := .sendBody },
      some (output ++ headers.flatMap headerLine ++ ascii "\r\n"))

/-- The position of the first occurrence that `strstr` finds. -/
def strstr (needle : Bytes) : Bytes → Option ℕ
  | [] => if needle = [] then some 0 else none
  | c :: rest =>
    if needle.isPrefixOf (c :: rest) then some 0 else (strstr needle rest).map (· + 1)

/-- The loop of `str_replace`, for so many rounds. The start is stored in 32 bits. -/
def strReplaceLoop (search replacement : Bytes) : ℕ → Bytes → Bytes
  | 0, result => result
  | rounds + 1, result =>
    match strstr search result with
    | none => result
    | some pos =>
      let start := pos % 2 ^ 32
      strReplaceLoop search replacement rounds
        (result.take start ++ replacement ++ result.drop (pos + search.length))

/-- `str_replace`. -/
def strReplace (haystack search replacement : Bytes) : Bytes :=
  let haystack := cstr haystack
  let search := cstr search
  let replacement := cstr replacement
  if haystack.length < search.length ∨ search.length = 0 then haystack
  else strReplaceLoop search replacement 1000 haystack

/-- The part of `http_response_create_builtin` that gives the response a page to fill in:
the file `error.html` if it can be mapped. -/
def builtinPage (errorPage : Option Bytes) (resp : HttpResponse) : Option HttpResponse :=
  match errorPage with
  | some map => httpResponseAppendBody resp map
  | none => do
    let resp ← httpResponseAppendBody resp
      (ascii "\x7b\x7btitle\x7d\x7d\n\n\x7b\x7bmessage\x7d\x7d")
    let headers ←
      httpHeaderListAdd resp.headers (httpHeaderNew headerContentType (ascii "text/plain")) true
    some { resp with headers }

/-- `http_response_create_builtin`, where `errorPage` is the file `error.html` if it
can be mapped. -/
def httpResponseCreateBuiltin (errorPage : Option Bytes) (code : UInt16) (errmsg : Option Bytes) :
    Option HttpResponse := do
  let resp := httpResponseNew (httpResponseLineNew code)
  let resp := { resp with body := resp.body.setType .bodyString }
  let headers ←
    httpHeaderListAdd resp.headers (httpHeaderNew headerContentType (ascii "text/html")) false
  let resp ← builtinPage errorPage { resp with headers }
  let kind := if 400 ≤ code then ascii "Error" else ascii "Response Code"
  let title := kind ++ ascii " " ++ decimal code.toNat ++ ascii " - " ++
    cstr (httpResponseLineGetMessage resp.resp)
  let buffer := title.take 1022
  let str ← resp.body.data
  let str := strReplace str (ascii "\x7b\x7btitle\x7d\x7d") buffer
  let str := strReplace str (ascii "\x7b\x7bbody_title\x7d\x7d") buffer
  let str := strReplace str (ascii "\x7b\x7bmessage\x7d\x7d") (errmsg.getD [])
  some { resp with body := { resp.body with data := some str } }

/-- The names of the headers of a list. -/
def headerNames (list : List HttpHeader) : List Bytes := list.map fun elem => cstr elem.name

@[simp] theorem headerNames_append_singleton (list : List HttpHeader) (header : HttpHeader) :
    headerNames (list ++ [header]) = headerNames list ++ [cstr header.name] := by
  simp [headerNames]

/-- A header whose name is not in a list is appended to it. -/
theorem httpHeaderListAdd_absent {list : List HttpHeader} {header : HttpHeader}
    (h : cstr header.name ∉ headerNames list) :
    httpHeaderListAdd list header true = some (list ++ [header]) := by
  have hnone : httpHeaderListGetall list header.name = [] := by
    refine List.findIdxs_eq_nil_iff.mpr fun elem helem => ?_
    have hne : cstr elem.name ≠ cstr header.name := fun heq =>
      h (heq ▸ List.mem_map_of_mem helem)
    simpa using hne
  rw [httpHeaderListAdd, if_pos rfl, httpHeaderListRemove, hnone]
  rfl

/-- A name of a list is found in it. -/
theorem exists_httpHeaderListGet {list : List HttpHeader} {name : Bytes} (hlen : strlen name ≠ 0)
    (h : cstr name ∈ headerNames list) : ∃ header, httpHeaderListGet list name = some header := by
  obtain ⟨elem, helem, hname⟩ := List.mem_map.mp h
  rw [httpHeaderListGet, if_neg hlen, ← Option.isSome_iff_exists, List.find?_isSome]
  exact ⟨elem, helem, by simpa using hname⟩

/-- Headers that give the type of the body, and at most the connection besides, are printed in
front of those that the head is made with. -/
theorem httpResponseHeaders_fresh {date : Bytes} {resp : HttpResponse}
    (hcode : resp.resp.code ≠ 100)
    (hnames : ∀ name ∈ headerNames resp.headers, name = headerContentType ∨ name = headerConnection)
    (htype : headerContentType ∈ headerNames resp.headers) :
    httpResponseHeaders date resp = some (resp.headers ++
      [lengthHeader resp, httpHeaderNew headerDate date,
        httpHeaderNew headerServer serverName]) := by
  have hother {name : Bytes} (htype : name ≠ headerContentType) (hconn : name ≠ headerConnection) :
      name ∉ headerNames resp.headers := fun hmem => (hnames name hmem).elim htype hconn
  have hlength : cstr (lengthHeader resp).name = headerContentLength ∨
      cstr (lengthHeader resp).name = headerTransferEncoding := by
    unfold lengthHeader
    split
    · exact Or.inr (by decide)
    · exact Or.inl (by change cstr (cstr headerContentLength) = _; decide)
  have hdate : cstr (httpHeaderNew headerDate (some date)).name = headerDate := by
    change cstr (cstr headerDate) = _
    decide
  have hserver : cstr (httpHeaderNew headerServer (some serverName)).name = headerServer := by
    decide
  have hfirst : cstr (lengthHeader resp).name ∉ headerNames resp.headers := by
    rcases hlength with hlength | hlength <;> rw [hlength]
    · exact hother (by decide) (by decide)
    · exact hother (by decide) (by decide)
  have hsecond : cstr (httpHeaderNew headerDate (some date)).name ∉
      headerNames (resp.headers ++ [lengthHeader resp]) := by
    rw [headerNames_append_singleton, hdate, List.mem_append, List.mem_singleton, not_or]
    refine ⟨hother (by decide) (by decide), ?_⟩
    rcases hlength with hlength | hlength <;> rw [hlength] <;> decide
  have hthird : cstr (httpHeaderNew headerServer (some serverName)).name ∉
      headerNames (resp.headers ++ [lengthHeader resp] ++
        [httpHeaderNew headerDate (some date)]) := by
    rw [headerNames_append_singleton, headerNames_append_singleton, hserver, hdate]
    simp only [List.mem_append, List.mem_singleton, not_or]
    refine ⟨⟨hother (by decide) (by decide), ?_⟩, by decide⟩
    rcases hlength with hlength | hlength <;> rw [hlength] <;> decide
  have hmem : cstr headerContentType ∈ headerNames (resp.headers ++ [lengthHeader resp]) := by
    rw [headerNames_append_singleton, (by decide : cstr headerContentType = headerContentType)]
    exact List.mem_append_left _ htype
  obtain ⟨type, hget⟩ := exists_httpHeaderListGet (by decide) hmem
  rw [httpResponseHeaders, if_pos hcode, httpHeaderListAdd_absent hfirst]
  simp only [Option.bind_eq_bind, Option.bind_some, hget, Option.elim_some]
  rw [httpHeaderListAdd_absent hsecond, Option.bind_some, httpHeaderListAdd_absent hthird]
  simp

/-- Only a method with a fixed text is found by its text. -/
theorem httpMethodFromstring_ne (method : Bytes) :
    httpMethodFromstring method ≠ .methodOther := by
  intro hother
  rcases Option.getD_eq_iff.mp hother with hfind | ⟨_, hinvalid⟩
  · have htext := List.find?_some hfind
    simp [httpMethodGetstring] at htext
  · simp at hinvalid

/-- A request line is made for every method that is found by its text. -/
theorem exists_httpRequestLineNew (method : Bytes) :
    ∃ line, httpRequestLineNew (httpMethodFromstring method) none = some line := by
  have hne := httpMethodFromstring_ne method
  cases hmethod : httpMethodFromstring method with
  | methodOther => exact absurd hmethod hne
  | _ => exact ⟨_, rfl⟩

/-- A new request line has the method it was made for and no version. -/
theorem httpRequestLineNew_eq {method : HttpRequestMethod} {other : Option Bytes}
    {line : HttpRequestLine} (h : httpRequestLineNew method other = some line) :
    line.method = method ∧ line.version = .httpxx := by
  unfold httpRequestLineNew at h
  split at h
  · simp at h
  · obtain rfl := Option.some.inj h
    exact ⟨rfl, rfl⟩
  · obtain rfl := Option.some.inj h
    exact ⟨rfl, rfl⟩

/-- A header line holds no zero byte. -/
theorem zero_notMem_headerLine (elem : HttpHeader) : 0 ∉ headerLine elem := by
  have hsep : (0 : UInt8) ∉ ascii ": " := by decide
  have hend : (0 : UInt8) ∉ ascii "\r\n" := by decide
  simp only [headerLine, List.mem_append, not_or]
  exact ⟨⟨⟨zero_notMem_cstr _, hsep⟩, zero_notMem_cstr _⟩, hend⟩

/-- A status line holds no zero byte. -/
theorem zero_notMem_statusLine (resp : HttpResponseLine) : 0 ∉ statusLine resp := by
  have hspace : (0 : UInt8) ∉ ascii " " := by decide
  have hend : (0 : UInt8) ∉ ascii "\r\n" := by decide
  simp only [statusLine, List.mem_append, not_or]
  refine ⟨⟨⟨⟨?_, zero_notMem_decimal _⟩, hspace⟩, zero_notMem_cstr _⟩, hend⟩
  cases resp.version <;> decide

/-- `http_response_write` either finds the head made before, or makes it as a C string
that is not empty and goes on to the body. -/
theorem httpResponseWrite_cases {date : Bytes} {resp resp' : HttpResponse} {out : Option Bytes}
    (h : httpResponseWrite date resp = some (resp', out)) :
    (resp' = resp ∧ out = none ∧ (resp.sendStatus = .sendBody ∨ resp.sendStatus = .sendDone)) ∨
    (∃ head headers, out = some head ∧ 0 ∉ head ∧ head ≠ [] ∧
      resp' = { resp with headers, sendStatus := .sendBody } ∧
      (resp.sendStatus = .sendResponseLine ∨ resp.sendStatus = .sendHeaders)) := by
  unfold httpResponseWrite at h
  have hend : (0 : UInt8) ∉ ascii "\r\n" := by decide
  have hlines (headers : List HttpHeader) : 0 ∉ headers.flatMap headerLine := by
    intro hmem
    obtain ⟨elem, _, helem⟩ := List.mem_flatMap.mp hmem
    exact zero_notMem_headerLine elem helem
  have houtput : 0 ∉ if resp.sendStatus = .sendResponseLine then statusLine resp.resp else [] := by
    split
    · exact zero_notMem_statusLine _
    · simp
  cases hstatus : resp.sendStatus with
  | sendBody | sendDone =>
    rw [hstatus] at h
    simp only [Option.some.injEq, Prod.mk.injEq] at h
    exact Or.inl ⟨h.1.symm, h.2.symm, by simp⟩
  | sendResponseLine | sendHeaders =>
    right
    rw [hstatus] at h houtput
    simp only [Option.bind_eq_bind, Option.bind_eq_some_iff, Option.some.injEq,
      Prod.mk.injEq] at h
    obtain ⟨headers, _, rfl, rfl⟩ := h
    refine ⟨_, headers, rfl, ?_, by simp [ascii], rfl, by simp⟩
    simp only [List.mem_append, not_or]
    exact ⟨⟨houtput, hlines headers⟩, hend⟩

/-- Appending to a body changes nothing else of the response. -/
theorem httpResponseAppendBody_eq {resp resp' : HttpResponse} {body : Bytes}
    (h : httpResponseAppendBody resp body = some resp') : ∃ body, resp' = { resp with body } := by
  obtain ⟨body, _, rfl⟩ := Option.map_eq_some_iff.mp h
  exact ⟨body, rfl⟩

/-- The page of a builtin response changes only its headers and its body. -/
theorem builtinPage_eq {errorPage : Option Bytes} {resp resp' : HttpResponse}
    (h : builtinPage errorPage resp = some resp') :
    ∃ headers body, resp' = { resp with headers, body } := by
  cases errorPage with
  | some map =>
    obtain ⟨body, rfl⟩ := httpResponseAppendBody_eq h
    exact ⟨resp.headers, body, rfl⟩
  | none =>
    simp only [builtinPage, Option.bind_eq_bind, Option.bind_eq_some_iff, Option.some.injEq] at h
    obtain ⟨middle, hbody, headers, _, rfl⟩ := h
    obtain ⟨body, rfl⟩ := httpResponseAppendBody_eq hbody
    exact ⟨headers, body, rfl⟩

/-- A builtin response is a new one for the status code it was asked for, with headers and a
body. -/
theorem httpResponseCreateBuiltin_eq {errorPage : Option Bytes} {code : UInt16}
    {errmsg : Option Bytes} {resp : HttpResponse}
    (h : httpResponseCreateBuiltin errorPage code errmsg = some resp) :
    ∃ headers body, resp = { httpResponseNew (httpResponseLineNew code) with headers, body } := by
  simp only [httpResponseCreateBuiltin, Option.bind_eq_bind, Option.bind_eq_some_iff,
    Option.some.injEq] at h
  obtain ⟨_, _, paged, hpage, _, _, rfl⟩ := h
  obtain ⟨headers, body, rfl⟩ := builtinPage_eq hpage
  exact ⟨headers, _, rfl⟩

/-- A builtin response has the status code it was asked for. -/
theorem httpResponseCreateBuiltin_resp {errorPage : Option Bytes} {code : UInt16}
    {errmsg : Option Bytes} {resp : HttpResponse}
    (h : httpResponseCreateBuiltin errorPage code errmsg = some resp) :
    resp.resp = httpResponseLineNew code := by
  obtain ⟨headers, body, rfl⟩ := httpResponseCreateBuiltin_eq h
  rfl

/-- A builtin response has one header, the type of its body. -/
theorem httpResponseCreateBuiltin_headers {errorPage : Option Bytes} {code : UInt16}
    {errmsg : Option Bytes} {resp : HttpResponse}
    (h : httpResponseCreateBuiltin errorPage code errmsg = some resp) :
    ∃ type : Bytes, resp.headers = [httpHeaderNew headerContentType type] := by
  simp only [httpResponseCreateBuiltin, Option.bind_eq_bind, Option.bind_eq_some_iff,
    Option.some.injEq] at h
  obtain ⟨headers, hheaders, paged, hpage, _, _, rfl⟩ := h
  obtain rfl : [httpHeaderNew headerContentType (ascii "text/html")] = headers :=
    Option.some.inj hheaders
  cases errorPage with
  | some map =>
    obtain ⟨body, rfl⟩ := httpResponseAppendBody_eq hpage
    exact ⟨_, rfl⟩
  | none =>
    simp only [builtinPage, Option.bind_eq_bind, Option.bind_eq_some_iff, Option.some.injEq]
      at hpage
    obtain ⟨middle, hbody, headers, hreplaced, rfl⟩ := hpage
    obtain ⟨body, rfl⟩ := httpResponseAppendBody_eq hbody
    have hplain : httpHeaderListAdd [httpHeaderNew headerContentType (ascii "text/html")]
        (httpHeaderNew headerContentType (ascii "text/plain")) true =
          some [httpHeaderNew headerContentType (ascii "text/plain")] := by decide
    obtain rfl := Option.some.inj (hplain.symm.trans hreplaced)
    exact ⟨_, rfl⟩

/-- A builtin response has a text for its body. -/
theorem httpResponseCreateBuiltin_body {errorPage : Option Bytes} {code : UInt16}
    {errmsg : Option Bytes} {resp : HttpResponse}
    (h : httpResponseCreateBuiltin errorPage code errmsg = some resp) :
    resp.body.type = .bodyString := by
  simp only [httpResponseCreateBuiltin, Option.bind_eq_bind, Option.bind_eq_some_iff,
    Option.some.injEq] at h
  obtain ⟨headers, _, paged, hpage, _, _, rfl⟩ := h
  cases errorPage with
  | some map =>
    obtain ⟨body, hbody, rfl⟩ := Option.map_eq_some_iff.mp hpage
    have htype : body.type = .bodyString := HttpBody.appendStr_type hbody
    exact htype
  | none =>
    simp only [builtinPage, Option.bind_eq_bind, Option.bind_eq_some_iff, Option.some.injEq]
      at hpage
    obtain ⟨middle, hmiddle, _, _, rfl⟩ := hpage
    obtain ⟨body, hbody, rfl⟩ := Option.map_eq_some_iff.mp hmiddle
    have htype : body.type = .bodyString := HttpBody.appendStr_type hbody
    exact htype

/-- A text that is not empty can be appended to a string without data. -/
theorem exists_appendStr {str : Bytes} (h : strlen str ≠ 0) :
    ∃ text, HttpBody.appendStr (.new .bodyString none) str (strlen str) =
      some (.new .bodyString (some text)) := by
  have hlength : ((cstr str).take (strlen str)).length < strlen str + 1 := by
    rw [List.length_take]
    omega
  refine ⟨(cstr str).take (strlen str), ?_⟩
  simp only [HttpBody.appendStr, HttpBody.new, ne_eq, not_true_eq_false, if_false, h,
    Option.getD_none]
  simp [cstr]

/-- A builtin response can be made unless the page to fill in is an empty text. -/
theorem exists_httpResponseCreateBuiltin {errorPage : Option Bytes}
    (hpage : ∀ page, errorPage = some page → strlen page ≠ 0) (code : UInt16)
    (errmsg : Option Bytes) :
    ∃ resp, httpResponseCreateBuiltin errorPage code errmsg = some resp := by
  let start : HttpResponse :=
    { httpResponseNew (httpResponseLineNew code) with
      headers := [httpHeaderNew headerContentType (ascii "text/html")]
      body := .new .bodyString none }
  have hpaged : ∃ paged text, builtinPage errorPage start = some paged ∧
      paged.body.data = some text := by
    cases herror : errorPage with
    | some page =>
      obtain ⟨text, htext⟩ := exists_appendStr (hpage page herror)
      exact ⟨_, text, by rw [builtinPage, httpResponseAppendBody, htext]; rfl, rfl⟩
    | none =>
      have hfixed : strlen (ascii "\x7b\x7btitle\x7d\x7d\n\n\x7b\x7bmessage\x7d\x7d") ≠ 0 := by
        decide
      obtain ⟨text, htext⟩ := exists_appendStr hfixed
      have hheaders : httpHeaderListAdd [httpHeaderNew headerContentType (ascii "text/html")]
          (httpHeaderNew headerContentType (ascii "text/plain")) true =
            some [httpHeaderNew headerContentType (ascii "text/plain")] := by
        decide
      refine ⟨{ start with
        headers := [httpHeaderNew headerContentType (ascii "text/plain")]
        body := .new .bodyString (some text) }, text, ?_, rfl⟩
      simp only [builtinPage, httpResponseAppendBody, start, htext, hheaders, Option.map_some,
        Option.bind_eq_bind, Option.bind_some]
  obtain ⟨paged, text, hpaged, htext⟩ := hpaged
  rw [← Option.isSome_iff_exists, httpResponseCreateBuiltin]
  change ((builtinPage errorPage start).bind _).isSome = true
  rw [hpaged, Option.bind_some, htext]
  rfl

end Khttp
