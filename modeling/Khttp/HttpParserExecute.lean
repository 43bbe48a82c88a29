import Khttp.HttpParser

/-!
# Running the request parser

`http_parser_execute`: its loop over the bytes of a buffer, with the callbacks as calls out of
the computation. A mark points into the buffer and is used for nothing but the bytes from it to
the current one, so it is kept as these bytes.
-/

namespace Khttp

open Lib

/-- A mark of `http_parser_execute`, named by its callback. -/
inductive ParserMark where
  | headerField
  | headerValue
  | url
  | body
  deriving DecidableEq, Repr

/-- The callback of a mark. -/
def ParserMark.callback (p : HttpParser) (text : Bytes) : ParserMark → ParserCallback
  | .headerField => .headerField p.httpMajor p.httpMinor text
  | .headerValue => .headerValue text
  | .url => .url (httpMethodStr p.method) text
  | .body => .body text

/-- `HPE_CB_...`. -/
def ParserCallback.errno : ParserCallback → HttpErrno
  | .messageBegin => .cbMessageBegin
  | .url _ _ => .cbUrl
  | .headerField _ _ _ => .cbHeaderField
  | .headerValue _ => .cbHeaderValue
  | .headersComplete => .cbHeadersComplete
  | .body _ => .cbBody
  | .messageComplete => .cbMessageComplete

/-- The parser and the local variables of `http_parser_execute`. -/
structure Execution where
  /-- The parser. -/
  parser : HttpParser
  /-- `p - data`. -/
  p : ℕ
  /-- The marks; a mark that is set is the bytes from it up to `p`. -/
  marks : ParserMark → Option Bytes

/-- What the `switch` does at a byte. -/
inductive AfterByte where
  /-- It goes on behind the byte, or behind so many more. -/
  | next (s : Execution) (skip : ℕ)
  /-- It returns. -/
  | stop (s : Execution) (parsed : ℕ)

/-- A case of the `switch`. -/
abbrev ParserCase := Calls ParserCallback ℤ AfterByte

namespace Execution

/-- Bytes are passed. -/
def pass (s : Execution) (bytes : Bytes) : Execution :=
  { s with p := s.p + bytes.length, marks := fun m => (s.marks m).map (· ++ bytes) }

/-- `MARK`. -/
def mark (s : Execution) (m : ParserMark) : Execution :=
  { s with marks := Function.update s.marks m (some ((s.marks m).getD [])) }

/-- `break`, with the parser as it is now. -/
def goOn (s : Execution) (p : HttpParser) (ch : UInt8) : ParserCase :=
  .done (.next { s.pass [ch] with parser := p } 0)

/-- `return`. -/
def leave (s : Execution) (parsed : ℕ) : ParserCase := .done (.stop s parsed)

/-- A parser that may have an error: `goto error`, or `break`. -/
def settle (s : Execution) (p : HttpParser) (ch : UInt8) : ParserCase :=
  if p.httpErrno = .ok then s.goOn p ch else { s with parser := p }.leave s.p

/-- A case that neither sets a mark nor makes a callback. -/
def plain (s : Execution) (p : Option HttpParser) (ch : UInt8) : ParserCase :=
  match p with
  | none => .crash
  | some p => s.settle p ch

/-- `CALLBACK_NOTIFY_`. -/
def callbackNotify (s : Execution) (cb : ParserCallback) (er : ℕ) (rest : Execution → ParserCase) :
    ParserCase :=
  if s.parser.httpErrno = .ok then
    .call cb fun code =>
      if code = 0 then rest s else { s with parser := s.parser.fail cb.errno }.leave er
  else .crash

/-- `CALLBACK_DATA_`; `extra` are the bytes from `p` on that are part of the text. -/
def callbackData (s : Execution) (m : ParserMark) (extra : Bytes) (er : ℕ)
    (rest : Execution → ParserCase) : ParserCase :=
  if s.parser.httpErrno = .ok then
    match s.marks m with
    | none => rest s
    | some text =>
      let cb := m.callback s.parser (text ++ extra)
      .call cb fun code =>
        if code = 0 then rest { s with marks := Function.update s.marks m none }
        else { s with parser := s.parser.fail cb.errno }.leave er
  else .crash

/-- `parser->state = ...`. -/
def setState (s : Execution) (state : ParserState) : Execution :=
  { s with parser.state := state }

/-- `s_start_req`. -/
def startReq (s : Execution) (ch : UInt8) : ParserCase :=
  if ch = cr ∨ ch = lf then s.goOn s.parser ch
  else
    let p := { s.parser with flags := .none, contentLength := ullongMax }
    if !isAlpha ch then s.settle (p.fail .invalidMethod) ch
    else
      let p := { p with method := .delete, index := 1 }
      match HttpParser.firstMethod ch with
      | none => s.settle (p.fail .invalidMethod) ch
      | some method =>
        { s with parser := { p with method, state := .reqMethod } }.callbackNotify .messageBegin
          (s.p + 1) fun s => s.goOn s.parser ch

/-- `parser->state = parse_url_char(...)` from a state of the URL parser, and its check. -/
def parseUrl (s : Execution) (from' : UrlState) (ch : UInt8) : ParserCase :=
  match parseUrlChar from' ch with
  | .dead => s.settle ({ s.parser with state := .dead }.fail .invalidUrl) ch
  | u => s.goOn { s.parser with state := .reqUrl u } ch

/-- The cases of the request target. -/
def reqUrl (s : Execution) (u : UrlState) (ch : UInt8) : ParserCase :=
  match u with
  | .dead => .crash
  | .spacesBeforeUrl =>
    if ch = byte ' ' then s.goOn s.parser ch
    else
      let s := s.mark .url
      if s.parser.method = .connect then
        (s.setState (.reqUrl .serverStart)).parseUrl .serverStart ch
      else s.parseUrl .spacesBeforeUrl ch
  | .schema | .schemaSlash | .schemaSlashSlash | .serverStart =>
    -- no whitespace is allowed here
    if ch = byte ' ' ∨ ch = cr ∨ ch = lf then s.settle (s.parser.fail .invalidUrl) ch
    else s.parseUrl u ch
  | .server | .serverWithAt | .path | .queryStringStart | .queryString | .fragmentStart
  | .fragment =>
    if ch = byte ' ' then
      (s.setState .reqHttpStart).callbackData .url [] (s.p + 1) fun s => s.goOn s.parser ch
    else if ch = cr ∨ ch = lf then
      { s with parser := { s.parser with
          httpMajor := 0
          httpMinor := 9
          state := if ch = cr then .reqLineAlmostDone else .headerFieldStart } }.callbackData
        .url [] (s.p + 1) fun s => s.goOn s.parser ch
    else s.parseUrl u ch

/-- `parser->state = NEW_MESSAGE()` and the last callback of a message. -/
def completeMessage (s : Execution) (rest : Execution → ParserCase) : ParserCase :=
  (s.setState s.parser.newMessage).callbackNotify .messageComplete (s.p + 1) rest

/-- `s_headers_done` behind its check. -/
def afterHeaders (s : Execution) (ch : UInt8) : ParserCase :=
  if s.parser.upgrade then
    -- the rest of the connection is in a different protocol
    s.completeMessage fun s => s.leave (s.p + 1)
  else if s.parser.flags.skipbody then s.completeMessage fun s => s.goOn s.parser ch
  else if s.parser.flags.chunked then s.goOn { s.parser with state := .chunkSizeStart } ch
  else if s.parser.contentLength = 0 then s.completeMessage fun s => s.goOn s.parser ch
  else if s.parser.contentLength ≠ ullongMax then
    s.goOn { s.parser with state := .bodyIdentity } ch
  else s.completeMessage fun s => s.goOn s.parser ch

/-- `s_headers_done`. -/
def headersDone (s : Execution) (ch : UInt8) : ParserCase :=
  if ch = lf then { s with parser.nread := 0 }.afterHeaders ch
  else s.settle (s.parser.fail .strict) ch

/-- `on_headers_complete` and what follows it. -/
def headersComplete (s : Execution) (ch : UInt8) : ParserCase :=
  .call .headersComplete fun code =>
    if code = 0 then s.headersDone ch
    else if code = 1 then { s with parser.flags.skipbody := true }.headersDone ch
    else { s with parser := s.parser.fail .cbHeadersComplete }.leave s.p

/-- `s_headers_almost_done`. -/
def headersAlmostDone (s : Execution) (ch : UInt8) : ParserCase :=
  if ch = lf then
    if s.parser.flags.trailing then
      -- the end of a chunked request
      s.completeMessage fun s => s.goOn s.parser ch
    else
      { s with
        parser.state := .headersDone
        parser.upgrade := s.parser.flags.upgrade ||
          s.parser.method = HttpMethod.connect }.headersComplete ch
  else s.settle (s.parser.fail .strict) ch

/-- `s_header_field_start`. -/
def headerFieldStart (s : Execution) (ch : UInt8) : ParserCase :=
  if ch = cr then s.goOn { s.parser with state := .headersAlmostDone } ch
  else if ch = lf then (s.setState .headersAlmostDone).headersAlmostDone ch
  else
    let c := token ch
    if c = 0 then s.settle (s.parser.fail .invalidHeaderToken) ch
    else (s.mark .headerField).goOn (s.parser.startName c) ch

/-- `s_header_field`. -/
def headerField (s : Execution) (ch : UInt8) : ParserCase :=
  let c := token ch
  let finish (state : ParserState) := (s.setState state).callbackData .headerField [] (s.p + 1)
    fun s => s.goOn s.parser ch
  if c ≠ 0 then s.plain (s.parser.matchName c ch) ch
  else if ch = byte ':' then finish .headerValueDiscardWs
  else if ch = cr then finish .headerAlmostDone
  else if ch = lf then finish .headerFieldStart
  else s.settle (s.parser.fail .invalidHeaderToken) ch

/-- `s_header_value_start`. -/
def headerValueStart (s : Execution) (ch : UInt8) : ParserCase :=
  (s.mark .headerValue).settle (s.parser.startValue ch) ch

/-- `s_header_value_discard_ws`. -/
def headerValueDiscardWs (s : Execution) (ch : UInt8) : ParserCase :=
  if isBlankChar ch then s.goOn s.parser ch
  else if ch = cr then s.goOn { s.parser with state := .headerValueDiscardWsAlmostDone } ch
  else if ch = lf then s.goOn { s.parser with state := .headerValueDiscardLws } ch
  else s.headerValueStart ch

/-- `s_header_value`. -/
def headerValue (s : Execution) (ch : UInt8) : ParserCase :=
  if ch = cr then
    (s.setState .headerAlmostDone).callbackData .headerValue [] (s.p + 1) fun s =>
      s.goOn s.parser ch
  else if ch = lf then
    (s.setState .headerAlmostDone).callbackData .headerValue [] s.p fun s =>
      s.plain (s.parser.plainCase ch) ch
  else s.plain (s.parser.matchValue ch) ch

/-- `s_header_value_lws`. -/
def headerValueLws (s : Execution) (ch : UInt8) : ParserCase :=
  if isBlankChar ch then (s.setState .headerValueStart).headerValueStart ch
  else ({ s with parser := s.parser.endHeader }.setState .headerFieldStart).headerFieldStart ch

/-- `s_header_value_discard_lws`. -/
def headerValueDiscardLws (s : Execution) (ch : UInt8) : ParserCase :=
  if isBlankChar ch then s.goOn { s.parser with state := .headerValueDiscardWs } ch
  else
    -- the value was empty
    ((s.mark .headerValue).setState .headerFieldStart).callbackData .headerValue [] s.p fun s =>
      s.headerFieldStart ch

/-- `s_message_done`, at a byte behind which `skip` bytes are passed already. -/
def messageDone (s : Execution) (ch : UInt8) (skip : ℕ) : ParserCase :=
  s.completeMessage fun s => .done (.next (s.pass [ch]) skip)

/-- The bytes of the body that are there, from the current one on. -/
def bodyBytes (s : Execution) (data : Bytes) : Bytes := data.take s.parser.contentLength

/-- `MARK(body)` and `parser->content_length -= to_read`. -/
def takeBody (s : Execution) (text : Bytes) : Execution :=
  { s.mark .body with parser.contentLength := s.parser.contentLength - text.length }

/-- The end of a body: its last byte is looked at again. -/
def endBody (s : Execution) (text : Bytes) (ch : UInt8) : ParserCase :=
  let s := (s.setState .messageDone).pass text.dropLast
  s.callbackData .body [text.getLastD ch] s.p fun s =>
    s.messageDone (text.getLastD ch) (text.length - 1)

/-- `s_body_identity` at the bytes `ch :: rest`. -/
def bodyIdentity (s : Execution) (ch : UInt8) (rest : Bytes) : ParserCase :=
  if s.parser.contentLength ≠ 0 ∧ s.parser.contentLength ≠ ullongMax then
    let text := s.bodyBytes (ch :: rest)
    let s := s.takeBody text
    if s.parser.contentLength = 0 then s.endBody text ch
    else .done (.next (s.pass text) (text.length - 1))
  else .crash

/-- `s_chunk_data` at the bytes `ch :: rest`. -/
def chunkData (s : Execution) (ch : UInt8) (rest : Bytes) : ParserCase :=
  if s.parser.flags.chunked = true ∧ s.parser.contentLength ≠ 0 ∧
      s.parser.contentLength ≠ ullongMax then
    let text := s.bodyBytes (ch :: rest)
    let s := s.takeBody text
    let s := if s.parser.contentLength = 0 then s.setState .chunkDataAlmostDone else s
    .done (.next (s.pass text) (text.length - 1))
  else .crash

/-- `s_chunk_data_almost_done`. -/
def chunkDataAlmostDone (s : Execution) (ch : UInt8) : ParserCase :=
  if s.parser.flags.chunked = true ∧ s.parser.contentLength = 0 then
    if ch = cr then
      (s.setState .chunkDataDone).callbackData .body [] (s.p + 1) fun s => s.goOn s.parser ch
    else s.settle (s.parser.fail .strict) ch
  else .crash

/-- The `switch` over the state, at the bytes `ch :: rest`. -/
def switchState (s : Execution) (ch : UInt8) (rest : Bytes) : ParserCase :=
  match s.parser.state with
  | .startReq => s.startReq ch
  | .reqUrl u => s.reqUrl u ch
  | .headerFieldStart => s.headerFieldStart ch
  | .headerField => s.headerField ch
  | .headerValueDiscardWs => s.headerValueDiscardWs ch
  | .headerValueDiscardLws => s.headerValueDiscardLws ch
  | .headerValueStart => s.headerValueStart ch
  | .headerValue => s.headerValue ch
  | .headerValueLws => s.headerValueLws ch
  | .headersAlmostDone => s.headersAlmostDone ch
  | .headersDone => s.headersDone ch
  | .bodyIdentity => s.bodyIdentity ch rest
  | .chunkData => s.chunkData ch rest
  | .chunkDataAlmostDone => s.chunkDataAlmostDone ch
  | .messageDone => s.messageDone ch 0
  | _ => s.plain (s.parser.plainCase ch) ch

/-- The body of the loop at the bytes `ch :: rest`. -/
def parseByte (s : Execution) (ch : UInt8) (rest : Bytes) : ParserCase :=
  if s.parser.state.parsingHeader then
    let s := { s with parser.nread := s.parser.nread + 1 }
    if httpMaxHeaderSize < s.parser.nread then s.settle (s.parser.fail .headerOverflow) ch
    else s.switchState ch rest
  else s.switchState ch rest

/-- The callbacks for the marks that are left behind the last byte. -/
def flushMarks (s : Execution) : ParserCase :=
  let marks := [ParserMark.headerField, .headerValue, .url, .body]
  if marks.countP (fun m => (s.marks m).isSome) ≤ 1 then
    s.callbackData .headerField [] s.p fun s =>
    s.callbackData .headerValue [] s.p fun s =>
    s.callbackData .url [] s.p fun s =>
    s.callbackData .body [] s.p fun s => s.leave s.p
  else .crash

/-- The loop over the bytes, of which the first ones may have been passed already. -/
def loop : ℕ → Bytes → Execution → ParserCase
  | _, [], s => s.flushMarks
  | skip + 1, _ :: rest, s => loop skip rest s
  | 0, ch :: rest, s => (s.parseByte ch rest).bind fun
    | .next s skip => loop skip rest s
    | .stop s parsed => s.leave parsed

/-- The marks at the start of a buffer: a text that the last one has left open goes on. -/
def openMarks (p : HttpParser) : ParserMark → Option Bytes
  | .headerField => if p.state = .headerField then some [] else none
  | .headerValue => if p.state = .headerValue then some [] else none
  | .url =>
    match p.state with
    | .reqUrl .spacesBeforeUrl | .reqUrl .dead => none
    | .reqUrl _ => some []
    | _ => none
  | .body => none

end Execution

/-- `http_parser_execute`, with the number that it returns. -/
def httpParserExecute (p : HttpParser) (data : Bytes) : Calls ParserCallback ℤ (HttpParser × ℕ) :=
  if p.httpErrno ≠ .ok then .done (p, 0)
  else if data = [] then
    match p.state with
    | .dead | .startReq => .done (p, 0)
    | _ => .done (p.fail .invalidEofState, 1)
  else (Execution.loop 0 data ⟨p, 0, Execution.openMarks p⟩).bind fun
    | .next s _ => .done (s.parser, s.p)
    | .stop s parsed => .done (s.parser, parsed)

end Khttp
