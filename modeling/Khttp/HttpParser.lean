import Khttp.Lib.Calls
import Khttp.HttpReader
import Khttp.UrlParser

/-!
# The request parser

`http_parser.c` as the server uses it: every parser is initialised with `HTTP_REQUEST`, and no
state of a request leads to one of a response, so the states of responses are left out. The
strict mode is on.
-/

namespace Khttp

open Lib

/-- `http_method`. -/
inductive HttpMethod where
  | delete
  | get
  | head
  | post
  | put
  | connect
  | options
  | trace
  | copy
  | lock
  | mkcol
  | move
  | propfind
  | proppatch
  | search
  | unlock
  | report
  | mkactivity
  | checkout
  | merge
  | msearch
  | notify
  | subscribe
  | unsubscribe
  | patch
  | purge
  | mkcalendar
  deriving DecidableEq, Repr

/-- `http_method_str`: the table `method_strings`. -/
def httpMethodStr : HttpMethod → Bytes
  | .delete => ascii "DELETE"
  | .get => ascii "GET"
  | .head => ascii "HEAD"
  | .post => ascii "POST"
  | .put => ascii "PUT"
  | .connect => ascii "CONNECT"
  | .options => ascii "OPTIONS"
  | .trace => ascii "TRACE"
  | .copy => ascii "COPY"
  | .lock => ascii "LOCK"
  | .mkcol => ascii "MKCOL"
  | .move => ascii "MOVE"
  | .propfind => ascii "PROPFIND"
  | .proppatch => ascii "PROPPATCH"
  | .search => ascii "SEARCH"
  | .unlock => ascii "UNLOCK"
  | .report => ascii "REPORT"
  | .mkactivity => ascii "MKACTIVITY"
  | .checkout => ascii "CHECKOUT"
  | .merge => ascii "MERGE"
  | .msearch => ascii "M-SEARCH"
  | .notify => ascii "NOTIFY"
  | .subscribe => ascii "SUBSCRIBE"
  | .unsubscribe => ascii "UNSUBSCRIBE"
  | .patch => ascii "PATCH"
  | .purge => ascii "PURGE"
  | .mkcalendar => ascii "MKCALENDAR"

/-- `http_errno`. -/
inductive HttpErrno where
  | ok
  | cbMessageBegin
  | cbUrl
  | cbHeaderField
  | cbHeaderValue
  | cbHeadersComplete
  | cbBody
  | cbMessageComplete
  | invalidEofState
  | headerOverflow
  | closedConnection
  | invalidVersion
  | invalidMethod
  | invalidUrl
  | lfExpected
  | invalidHeaderToken
  | invalidContentLength
  | invalidChunkSize
  | invalidConstant
  | strict
  deriving DecidableEq, Repr

/-- `http_errno_description`. -/
def httpErrnoDescription : HttpErrno → Bytes
  | .ok => ascii "success"
  | .cbMessageBegin => ascii "the on_message_begin callback failed"
  | .cbUrl => ascii "the on_url callback failed"
  | .cbHeaderField => ascii "the on_header_field callback failed"
  | .cbHeaderValue => ascii "the on_header_value callback failed"
  | .cbHeadersComplete => ascii "the on_headers_complete callback failed"
  | .cbBody => ascii "the on_body callback failed"
  | .cbMessageComplete => ascii "the on_message_complete callback failed"
  | .invalidEofState => ascii "stream ended at an unexpected time"
  | .headerOverflow => ascii "too many header bytes seen; overflow detected"
  | .closedConnection => ascii "data received after completed connection: close message"
  | .invalidVersion => ascii "invalid HTTP version"
  | .invalidMethod => ascii "invalid HTTP method"
  | .invalidUrl => ascii "invalid URL"
  | .lfExpected => ascii "LF character expected"
  | .invalidHeaderToken => ascii "invalid character in header"
  | .invalidContentLength => ascii "invalid character in content-length header"
  | .invalidChunkSize => ascii "invalid character in chunk size header"
  | .invalidConstant => ascii "invalid constant string"
  | .strict => ascii "strict mode assertion failed"

/-- The states of `enum state` that a request can be in; those of its target are a state of the
URL parser. -/
inductive ParserState where
  | dead
  | startReq
  | reqMethod
  | reqUrl (s : UrlState)
  | reqHttpStart
  | reqHttpH
  | reqHttpHT
  | reqHttpHTT
  | reqHttpHTTP
  | reqFirstHttpMajor
  | reqHttpMajor
  | reqFirstHttpMinor
  | reqHttpMinor
  | reqLineAlmostDone
  | headerFieldStart
  | headerField
  | headerValueDiscardWs
  | headerValueDiscardWsAlmostDone
  | headerValueDiscardLws
  | headerValueStart
  | headerValue
  | headerValueLws
  | headerAlmostDone
  | chunkSizeStart
  | chunkSize
  | chunkParameters
  | chunkSizeAlmostDone
  | headersAlmostDone
  | headersDone
  | chunkData
  | chunkDataAlmostDone
  | chunkDataDone
  | bodyIdentity
  | messageDone
  deriving DecidableEq, Repr

/-- `PARSING_HEADER`. -/
def ParserState.parsingHeader : ParserState → Bool
  | .chunkData | .chunkDataAlmostDone | .chunkDataDone | .bodyIdentity | .messageDone => false
  | _ => true

/-- `header_states`. -/
inductive HeaderState where
  | general
  | c
  | co
  | con
  | matchingConnection
  | matchingProxyConnection
  | matchingContentLength
  | matchingTransferEncoding
  | matchingUpgrade
  | connection
  | contentLength
  | transferEncoding
  | upgrade
  | matchingTransferEncodingChunked
  | matchingConnectionKeepAlive
  | matchingConnectionClose
  | transferEncodingChunked
  | connectionKeepAlive
  | connectionClose
  deriving DecidableEq, Repr

/-- The bits of `flags`. -/
structure ParserFlags where
  /-- `F_CHUNKED`. -/
  chunked : Bool
  /-- `F_CONNECTION_KEEP_ALIVE`. -/
  connectionKeepAlive : Bool
  /-- `F_CONNECTION_CLOSE`. -/
  connectionClose : Bool
  /-- `F_TRAILING`. -/
  trailing : Bool
  /-- `F_UPGRADE`. -/
  upgrade : Bool
  /-- `F_SKIPBODY`. -/
  skipbody : Bool
  deriving DecidableEq, Repr

/-- No bit is set. -/
def ParserFlags.none : ParserFlags := ⟨false, false, false, false, false, false⟩

/-- `http_parser`. -/
structure HttpParser where
  /-- `flags`. -/
  flags : ParserFlags
  /-- `state`. -/
  state : ParserState
  /-- `header_state`. -/
  headerState : HeaderState
  /-- `index`. -/
  index : ℕ
  /-- `nread`. -/
  nread : ℕ
  /-- `content_length`. -/
  contentLength : ℕ
  /-- `http_major`. -/
  httpMajor : ℕ
  /-- `http_minor`. -/
  httpMinor : ℕ
  /-- `method`. -/
  method : HttpMethod
  /-- `http_errno`. -/
  httpErrno : HttpErrno
  /-- `upgrade`. -/
  upgrade : Bool
  deriving DecidableEq, Repr

/-- `HTTP_MAX_HEADER_SIZE`. -/
def httpMaxHeaderSize : ℕ := 80 * 1024

/-- `ULLONG_MAX`. -/
def ullongMax : ℕ := 2 ^ 64 - 1

/-- `tokens`: a character of a token in lower case, zero for the others. -/
def token (ch : UInt8) : UInt8 :=
  if byte 'A' ≤ ch && ch ≤ byte 'Z' then ch + 32
  else if byte 'a' ≤ ch && ch ≤ byte 'z' then ch
  else if isNum ch || (ascii "!#$%&'*+-.^_`|~").contains ch then ch
  else 0

/-- `unhex`, `none` for -1. The table lists the first half of its elements; the others are
zero. -/
def unhex (ch : UInt8) : Option ℕ :=
  if isNum ch then some (ch - byte '0').toNat
  else if byte 'A' ≤ ch && ch ≤ byte 'F' then some (ch - byte 'A' + 10).toNat
  else if byte 'a' ≤ ch && ch ≤ byte 'f' then some (ch - byte 'a' + 10).toNat
  else if 128 ≤ ch then some 0
  else none

/-- `CR`. -/
def cr : UInt8 := byte '\r'

/-- `LF`. -/
def lf : UInt8 := byte '\n'

/-- A space or a tab. -/
def isBlankChar (ch : UInt8) : Bool := ch = byte ' ' || ch = byte '\t'

/-- A name or value that the parser looks for. -/
def HeaderState.text : HeaderState → Bytes
  | .matchingConnection => ascii "connection"
  | .matchingProxyConnection => ascii "proxy-connection"
  | .matchingContentLength => ascii "content-length"
  | .matchingTransferEncoding => ascii "transfer-encoding"
  | .matchingUpgrade => ascii "upgrade"
  | .matchingTransferEncodingChunked => ascii "chunked"
  | .matchingConnectionKeepAlive => ascii "keep-alive"
  | .matchingConnectionClose => ascii "close"
  | _ => []

namespace HttpParser

/-- `http_parser_init` with `HTTP_REQUEST`. -/
def init : HttpParser := ⟨.none, .startReq, .general, 0, 0, 0, 0, 0, .delete, .ok, false⟩

/-- `SET_ERRNO`; what follows it is `goto error`. -/
def fail (p : HttpParser) (e : HttpErrno) : HttpParser := { p with httpErrno := e }

/-- `http_should_keep_alive`; a request needs no EOF. -/
def httpShouldKeepAlive (p : HttpParser) : Bool :=
  if 0 < p.httpMajor ∧ 0 < p.httpMinor then !p.flags.connectionClose
  else p.flags.connectionKeepAlive

/-- `NEW_MESSAGE`. -/
def newMessage (p : HttpParser) : ParserState := if p.httpShouldKeepAlive then .startReq else .dead

/-- `STRICT_CHECK(ch != c)` and the state that follows. -/
def strictCheck (p : HttpParser) (ch c : UInt8) (next : ParserState) : HttpParser :=
  if ch = c then { p with state := next } else p.fail .strict

/-- The first character of a method. -/
def firstMethod (ch : UInt8) : Option HttpMethod :=
  if ch = byte 'C' then some .connect
  else if ch = byte 'D' then some .delete
  else if ch = byte 'G' then some .get
  else if ch = byte 'H' then some .head
  else if ch = byte 'L' then some .lock
  else if ch = byte 'M' then some .mkcol
  else if ch = byte 'N' then some .notify
  else if ch = byte 'O' then some .options
  else if ch = byte 'P' then some .post
  else if ch = byte 'R' then some .report
  else if ch = byte 'S' then some .subscribe
  else if ch = byte 'T' then some .trace
  else if ch = byte 'U' then some .unlock
  else none

/-- The other method that a character leads to which is not the next one of the method. -/
def otherMethod (method : HttpMethod) (index : ℕ) (ch : UInt8) : Option HttpMethod :=
  if method = .connect then
    if index = 1 ∧ ch = byte 'H' then some .checkout
    else if index = 2 ∧ ch = byte 'P' then some .copy
    else none
  else if method = .mkcol then
    if index = 1 ∧ ch = byte 'O' then some .move
    else if index = 1 ∧ ch = byte 'E' then some .merge
    else if index = 1 ∧ ch = byte '-' then some .msearch
    else if index = 2 ∧ ch = byte 'A' then some .mkactivity
    else if index = 3 ∧ ch = byte 'A' then some .mkcalendar
    else none
  else if method = .subscribe then
    if index = 1 ∧ ch = byte 'E' then some .search else none
  else if index = 1 ∧ method = .post then
    if ch = byte 'R' then some .propfind
    else if ch = byte 'U' then some .put
    else if ch = byte 'A' then some .patch
    else none
  else if index = 2 then
    if method = .put then
      if ch = byte 'R' then some .purge else none
    else if method = .unlock then
      if ch = byte 'S' then some .unsubscribe else none
    else none
  else if index = 4 ∧ method = .propfind ∧ ch = byte 'P' then some .proppatch
  else none

/-- `s_req_method`; there is no result where it reads behind the text of the method. -/
def reqMethod (p : HttpParser) (ch : UInt8) : Option HttpParser :=
  if ch = 0 then some (p.fail .invalidMethod)
  else (httpMethodStr p.method ++ [0])[p.index]?.map fun matcher =>
    if ch = byte ' ' ∧ matcher = 0 then
      { p with state := .reqUrl .spacesBeforeUrl, index := p.index + 1 }
    else if ch = matcher then { p with index := p.index + 1 }
    else match otherMethod p.method p.index ch with
      | some method => { p with method, index := p.index + 1 }
      | none => p.fail .invalidMethod

/-- A digit of a version number that has one already. -/
def versionDigit (p : HttpParser) (ch : UInt8) (number : ℕ) (set : HttpParser → ℕ → HttpParser) :
    HttpParser :=
  if isNum ch then
    let p := set p (number * 10 + (ch - byte '0').toNat)
    if 999 < number * 10 + (ch - byte '0').toNat then p.fail .invalidVersion else p
  else p.fail .invalidVersion

/-- `s_chunk_size_start`; there is no result where an assertion fails. -/
def chunkSizeStart (p : HttpParser) (ch : UInt8) : Option HttpParser :=
  if p.nread = 1 ∧ p.flags.chunked = true then
    some (match unhex ch with
      | none => p.fail .invalidChunkSize
      | some v => { p with contentLength := v, state := .chunkSize })
  else none

/-- `s_chunk_size` behind its assertion. -/
def chunkSize (p : HttpParser) (ch : UInt8) : HttpParser :=
  if ch = cr then { p with state := .chunkSizeAlmostDone }
  else match unhex ch with
    | none =>
      if ch = byte ';' ∨ ch = byte ' ' then { p with state := .chunkParameters }
      else p.fail .invalidChunkSize
    | some v =>
      if (ullongMax - 16) / 16 < p.contentLength then p.fail .invalidContentLength
      else { p with contentLength := p.contentLength * 16 + v }

/-- `s_chunk_size_almost_done` behind its assertion. -/
def chunkSizeAlmostDone (p : HttpParser) (ch : UInt8) : HttpParser :=
  if ch = lf then
    let p := { p with nread := 0 }
    if p.contentLength = 0 then { p with flags.trailing := true, state := .headerFieldStart }
    else { p with state := .chunkData }
  else p.fail .strict

/-- The cases of the `switch` that neither set a mark nor make a callback nor look at the byte
again. There is no result where an assertion fails or memory behind an array is read. -/
def plainCase (p : HttpParser) (ch : UInt8) : Option HttpParser :=
  match p.state with
  | .dead => some (if ch = cr ∨ ch = lf then p else p.fail .closedConnection)
  | .reqMethod => p.reqMethod ch
  | .reqHttpStart => some (
      if ch = byte 'H' then { p with state := .reqHttpH }
      else if ch = byte ' ' then p
      else p.fail .invalidConstant)
  | .reqHttpH => some (p.strictCheck ch (byte 'T') .reqHttpHT)
  | .reqHttpHT => some (p.strictCheck ch (byte 'T') .reqHttpHTT)
  | .reqHttpHTT => some (p.strictCheck ch (byte 'P') .reqHttpHTTP)
  | .reqHttpHTTP => some (p.strictCheck ch (byte '/') .reqFirstHttpMajor)
  | .reqFirstHttpMajor => some (
      if byte '1' ≤ ch ∧ ch ≤ byte '9' then
        { p with httpMajor := (ch - byte '0').toNat, state := .reqHttpMajor }
      else p.fail .invalidVersion)
  | .reqHttpMajor => some (
      if ch = byte '.' then { p with state := .reqFirstHttpMinor }
      else p.versionDigit ch p.httpMajor fun p n => { p with httpMajor := n })
  | .reqFirstHttpMinor => some (
      if isNum ch then { p with httpMinor := (ch - byte '0').toNat, state := .reqHttpMinor }
      else p.fail .invalidVersion)
  | .reqHttpMinor => some (
      if ch = cr then { p with state := .reqLineAlmostDone }
      else if ch = lf then { p with state := .headerFieldStart }
      else p.versionDigit ch p.httpMinor fun p n => { p with httpMinor := n })
  | .reqLineAlmostDone => some (
      if ch = lf then { p with state := .headerFieldStart } else p.fail .lfExpected)
  | .headerValueDiscardWsAlmostDone => some (p.strictCheck ch lf .headerValueDiscardLws)
  | .headerAlmostDone => some (p.strictCheck ch lf .headerValueLws)
  | .chunkSizeStart => p.chunkSizeStart ch
  | .chunkSize => if p.flags.chunked then some (p.chunkSize ch) else none
  | .chunkParameters =>
      if p.flags.chunked then
        some (if ch = cr then { p with state := .chunkSizeAlmostDone } else p)
      else none
  | .chunkSizeAlmostDone => if p.flags.chunked then some (p.chunkSizeAlmostDone ch) else none
  | .chunkDataDone =>
      if p.flags.chunked then
        some (if ch = lf then { p with nread := 0, state := .chunkSizeStart } else p.fail .strict)
      else none
  -- `default`
  | _ => none

/-- A character of a name or value that the parser is looking for, and the state behind the
last one; there is no result where it reads behind the text. -/
def matchText (p : HttpParser) (c : UInt8) (found : HeaderState) : Option HttpParser :=
  let text := p.headerState.text
  let p := { p with index := p.index + 1 }
  if text.length < p.index then some { p with headerState := .general }
  else (text ++ [0])[p.index]?.map fun expected =>
    if c ≠ expected then { p with headerState := .general }
    else if p.index = text.length - 1 then { p with headerState := found }
    else p

/-- The `switch` over `header_state` for a character of a name, `c` in lower case. -/
def matchName (p : HttpParser) (c ch : UInt8) : Option HttpParser :=
  match p.headerState with
  | .general => some p
  | .c => some { p with
      index := p.index + 1, headerState := if c = byte 'o' then .co else .general }
  | .co => some { p with
      index := p.index + 1, headerState := if c = byte 'n' then .con else .general }
  | .con => some { p with
      index := p.index + 1
      headerState :=
        if c = byte 'n' then .matchingConnection
        else if c = byte 't' then .matchingContentLength
        else .general }
  | .matchingConnection => p.matchText c .connection
  | .matchingProxyConnection => p.matchText c .connection
  | .matchingContentLength => p.matchText c .contentLength
  | .matchingTransferEncoding => p.matchText c .transferEncoding
  | .matchingUpgrade => p.matchText c .upgrade
  | .connection | .contentLength | .transferEncoding | .upgrade =>
      some (if ch ≠ byte ' ' then { p with headerState := .general } else p)
  -- "Unknown header_state"
  | .matchingTransferEncodingChunked | .matchingConnectionKeepAlive | .matchingConnectionClose
  | .transferEncodingChunked | .connectionKeepAlive | .connectionClose => none

/-- What the first character of a name leads to, `c` in lower case. -/
def startName (p : HttpParser) (c : UInt8) : HttpParser :=
  { p with
    index := 0
    state := .headerField
    headerState :=
      if c = byte 'c' then .c
      else if c = byte 'p' then .matchingProxyConnection
      else if c = byte 't' then .matchingTransferEncoding
      else if c = byte 'u' then .matchingUpgrade
      else .general }

/-- `s_header_value_start` behind its mark. -/
def startValue (p : HttpParser) (ch : UInt8) : HttpParser :=
  let p := { p with state := .headerValue, index := 0 }
  let c := lower ch
  match p.headerState with
  | .upgrade => { p with flags.upgrade := true, headerState := .general }
  | .transferEncoding => { p with
      headerState :=
        if byte 'c' = c then .matchingTransferEncodingChunked else .general }
  | .contentLength =>
      if isNum ch then { p with contentLength := (ch - byte '0').toNat }
      else p.fail .invalidContentLength
  | .connection => { p with
      headerState :=
        if c = byte 'k' then .matchingConnectionKeepAlive
        else if c = byte 'c' then .matchingConnectionClose
        else .general }
  | _ => { p with headerState := .general }

/-- The `switch` over `header_state` for a character of a value; there is no result where an
assertion fails. -/
def matchValue (p : HttpParser) (ch : UInt8) : Option HttpParser :=
  let c := lower ch
  match p.headerState with
  | .general => some p
  -- "Shouldn't get here."
  | .connection | .transferEncoding => none
  | .contentLength => some (
      if ch = byte ' ' then p
      else if isNum ch then
        if (ullongMax - 10) / 10 < p.contentLength then p.fail .invalidContentLength
        else { p with contentLength := p.contentLength * 10 + (ch - byte '0').toNat }
      else p.fail .invalidContentLength)
  | .matchingTransferEncodingChunked => p.matchText c .transferEncodingChunked
  | .matchingConnectionKeepAlive => p.matchText c .connectionKeepAlive
  | .matchingConnectionClose => p.matchText c .connectionClose
  | .transferEncodingChunked | .connectionKeepAlive | .connectionClose =>
      some (if ch ≠ byte ' ' then { p with headerState := .general } else p)
  | _ => some { p with state := .headerValue, headerState := .general }

/-- What a header line that has ended sets of the flags. -/
def endHeader (p : HttpParser) : HttpParser :=
  match p.headerState with
  | .connectionKeepAlive => { p with flags.connectionKeepAlive := true }
  | .connectionClose => { p with flags.connectionClose := true }
  | .transferEncodingChunked => { p with flags.chunked := true }
  | _ => p

end HttpParser

end Khttp
