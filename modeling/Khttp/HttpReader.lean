import Khttp.ServerConnection

/-!
# The callbacks of the request parser

`http-reader.c`: the parser reports a message as a sequence of callbacks, data in one
or more fragments. A callback has no result where it dereferences a null pointer or an
assertion fails; a result other than zero stops the parser with an error.
-/

namespace Khttp

/-- A callback of `http_parser` for requests, with what it reads of the parser. -/
inductive ParserCallback where
  /-- `on_message_begin`. -/
  | messageBegin
  /-- `on_url`, with the parser's method as text. -/
  | url (method fragment : Bytes)
  /-- `on_header_field`, with `http_major` and `http_minor`. -/
  | headerField (major minor : ℕ) (fragment : Bytes)
  /-- `on_header_value`. -/
  | headerValue (fragment : Bytes)
  /-- `on_headers_complete`. -/
  | headersComplete
  /-- `on_body`. -/
  | body (fragment : Bytes)
  /-- `on_message_complete`. -/
  | messageComplete
  deriving DecidableEq, Repr

/-- What one `http_parser_execute` does with the bytes of a read. -/
structure ParserRun where
  /-- The callbacks it makes, as long as they return zero. -/
  callbacks : List ParserCallback
  /-- The parser's `upgrade` flag behind them. -/
  upgrade : Bool
  /-- Whether all bytes were parsed and `HTTP_PARSER_ERRNO` is `HPE_OK`. -/
  parsed : Bool
  /-- `http_errno_description` where there is an error. -/
  description : Bytes
  deriving DecidableEq, Repr

namespace ServerParseStatus

/-- `parser_cb_on_message_begin`: a request that is still current is deleted. -/
def onMessageBegin (s : ServerParseStatus) : ServerParseStatus :=
  { s with currentRequest := some httpRequestNew, requestComplete := false }

/-- `parser_cb_on_url`. -/
def onUrl (s : ServerParseStatus) (method fragment : Bytes) : Option ServerParseStatus := do
  let request ← s.currentRequest
  let line ← httpRequestLineNew (httpMethodFromstring method) none
  some { s with
    currentRequest := some { request with req := some { line with uri := some (cstr fragment) } } }

/-- The version that `parser_cb_on_header_field` reads from the parser. -/
def requestVersion (major minor : ℕ) : Option HttpVersion :=
  if major = 1 then
    if minor = 0 then some .http10 else if minor = 1 then some .http11 else none
  else none

/-- The versions 1.0 and 1.1 are known. -/
theorem exists_requestVersion {minor : ℕ} (h : minor ≤ 1) :
    ∃ version, requestVersion 1 minor = some version := by
  rcases (by omega : minor = 0 ∨ minor = 1) with rfl | rfl
  · exact ⟨.http10, rfl⟩
  · exact ⟨.http11, rfl⟩

/-- `http_header_list_add` to the current request without replacement. -/
def saveHeader (s : ServerParseStatus) (header : HttpHeader) : Option ServerParseStatus :=
  s.currentRequest.map fun request =>
    { s with currentRequest := some { request with headers := request.headers ++ [header] } }

/-- `parser_cb_on_header_field`, with the value it returns. -/
def onHeaderField (s : ServerParseStatus) (major minor : ℕ) (fragment : Bytes) :
    Option (ServerParseStatus × ℤ) :=
  match s.parserHeaderState with
  | .hstateNone =>
    let s := { s with parserCurrentHeader := some (httpHeaderNew (cstr fragment) none) }
    match requestVersion major minor with
    | none => some (s, -1)
    | some version => do
      let request ← s.currentRequest
      let line ← request.req
      some ({ s with
        currentRequest := some { request with req := some { line with version } }
        parserHeaderState := .hstateField }, 0)
  | .hstateValue => do
    let s ← s.parserCurrentHeader.elim (some s) s.saveHeader
    some ({ s with
      parserCurrentHeader := some (httpHeaderNew (cstr fragment) none)
      parserHeaderState := .hstateField }, 0)
  | .hstateField => do
    let header ← s.parserCurrentHeader
    some ({ s with
      parserCurrentHeader := some { header with name := cstr header.name ++ cstr fragment }
      parserHeaderState := .hstateField }, 0)

/-- `parser_cb_on_header_value`. -/
def onHeaderValue (s : ServerParseStatus) (fragment : Bytes) : Option ServerParseStatus :=
  s.parserCurrentHeader.map fun header =>
    { s with
      parserCurrentHeader := some (httpHeaderAppendContent header (cstr fragment))
      parserHeaderState := .hstateValue }

/-- `parser_cb_on_headers_complete`. -/
def onHeadersComplete (s : ServerParseStatus) : Option ServerParseStatus :=
  match s.parserCurrentHeader with
  | none => some s
  | some header => (s.saveHeader header).map fun s => { s with parserCurrentHeader := none }

/-- `parser_cb_on_body`. -/
def onBody (s : ServerParseStatus) (fragment : Bytes) : Option ServerParseStatus := do
  let request ← s.currentRequest
  let request ← httpRequestAppendBody request (cstr fragment)
  some { s with currentRequest := some request }

/-- `parser_cb_on_message_complete`. -/
def onMessageComplete (s : ServerParseStatus) : ServerParseStatus :=
  { s with requestComplete := true }

/-- A callback, with the value it returns. -/
def callback (s : ServerParseStatus) : ParserCallback → Option (ServerParseStatus × ℤ)
  | .messageBegin => some (s.onMessageBegin, 0)
  | .url method fragment => (s.onUrl method fragment).map (·, 0)
  | .headerField major minor fragment => s.onHeaderField major minor fragment
  | .headerValue fragment => (s.onHeaderValue fragment).map (·, 0)
  | .headersComplete => s.onHeadersComplete.map (·, 0)
  | .body fragment => (s.onBody fragment).map (·, 0)
  | .messageComplete => some (s.onMessageComplete, 0)

/-- The callbacks of one `http_parser_execute`, up to the first that does not return
zero; the flag says whether all of them did. -/
def execute (s : ServerParseStatus) : List ParserCallback → Option (ServerParseStatus × Bool)
  | [] => some (s, true)
  | cb :: cbs =>
    match s.callback cb with
    | none => none
    | some (s, 0) => execute s cbs
    | some (s, _) => some (s, false)

/-- Callbacks that all return zero are followed by the next ones. -/
theorem execute_append {s t : ServerParseStatus} {cbs : List ParserCallback}
    (h : s.execute cbs = some (t, true)) (cbs' : List ParserCallback) :
    s.execute (cbs ++ cbs') = t.execute cbs' := by
  induction cbs generalizing s with
  | nil =>
    obtain rfl : s = t := by simpa [execute] using h
    rfl
  | cons cb cbs ih =>
    rw [List.cons_append, execute.eq_2]
    rw [execute.eq_2] at h
    split at h
    · simp at h
    · exact ih h
    · simp at h

/-- What all callbacks of a list survive, the first ones do. -/
theorem execute_initial {s t : ServerParseStatus} {cbs cbs' : List ParserCallback}
    (h : s.execute (cbs ++ cbs') = some (t, true)) :
    ∃ u, s.execute cbs = some (u, true) ∧ u.execute cbs' = some (t, true) := by
  induction cbs generalizing s with
  | nil => exact ⟨s, rfl, h⟩
  | cons cb cbs ih =>
    rw [List.cons_append, execute.eq_2] at h
    rw [execute.eq_2]
    split at h
    · simp at h
    · exact ih h
    · simp at h

end ServerParseStatus

end Khttp
