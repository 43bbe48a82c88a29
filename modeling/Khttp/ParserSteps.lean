import Khttp.Lib.Fragments
import Khttp.ParserInvariant

/-!
# The parser byte by byte

What a single byte does to the parser, without buffers and without marks: each byte of a text is
reported by a callback of its own. It is the meaning that `http_parser_execute` is compared with,
for callbacks that all return zero.
-/

namespace Khttp

open Lib

/-- What a byte does. -/
inductive ByteStep where
  /-- The callbacks for the byte; the parser goes on with the next one. -/
  | next (callbacks : List ParserCallback) (p : HttpParser)
  /-- The callbacks for the byte, behind which there is an error or another protocol. -/
  | stop (callbacks : List ParserCallback) (p : HttpParser)
  deriving DecidableEq, Repr

/-- A callback in front of the others. -/
def ByteStep.after (cb : ParserCallback) : ByteStep → ByteStep
  | next cbs p => next (cb :: cbs) p
  | stop cbs p => stop (cb :: cbs) p

namespace HttpParser

variable (p : HttpParser) (ch : UInt8)

/-- The byte is accepted unless there is an error. -/
def accept (cbs : List ParserCallback) : ByteStep :=
  if p.httpErrno = .ok then .next cbs p else .stop [] p

/-- A case that does not leave the assertions behind. -/
def acceptCase (result : Option HttpParser) (cbs : List ParserCallback) : ByteStep :=
  match result with
  | none => .stop [] p
  | some p' => p'.accept cbs

/-- The end of a message behind which there can be another one. -/
def messageStep : ByteStep := .next [.messageComplete] { p with state := p.newMessage }

/-- `s_start_req`. -/
def startReqStep : ByteStep :=
  if ch = cr ∨ ch = lf then .next [] p
  else
    let p := { p with flags := .none, contentLength := ullongMax }
    if !isAlpha ch then .stop [] (p.fail .invalidMethod)
    else
      let p := { p with method := .delete, index := 1 }
      match firstMethod ch with
      | none => .stop [] (p.fail .invalidMethod)
      | some method => .next [.messageBegin] { p with method, state := .reqMethod }

/-- A character of the target. -/
def targetStep (from' : UrlState) : ByteStep :=
  match parseUrlChar from' ch with
  | .dead => .stop [] ({ p with state := .dead }.fail .invalidUrl)
  | u => .next [.url (httpMethodStr p.method) [ch]] { p with state := .reqUrl u }

/-- The cases of the target. -/
def reqUrlStep (u : UrlState) : ByteStep :=
  match u with
  | .dead => .stop [] p
  | .spacesBeforeUrl =>
    if ch = byte ' ' then .next [] p
    else p.targetStep ch (if p.method = .connect then .serverStart else .spacesBeforeUrl)
  | .schema | .schemaSlash | .schemaSlashSlash | .serverStart =>
    if ch = byte ' ' ∨ ch = cr ∨ ch = lf then .stop [] (p.fail .invalidUrl) else p.targetStep ch u
  | .server | .serverWithAt | .path | .queryStringStart | .queryString | .fragmentStart
  | .fragment =>
    if ch = byte ' ' then .next [] { p with state := .reqHttpStart }
    else if ch = cr ∨ ch = lf then
      .next [] { p with
        httpMajor := 0
        httpMinor := 9
        state := if ch = cr then .reqLineAlmostDone else .headerFieldStart }
    else p.targetStep ch u

/-- The end of the header. -/
def afterHeadersStep : ByteStep :=
  if p.upgrade then .stop [.messageComplete] { p with state := p.newMessage }
  else if p.flags.skipbody then p.messageStep
  else if p.flags.chunked then .next [] { p with state := .chunkSizeStart }
  else if p.contentLength = 0 then p.messageStep
  else if p.contentLength ≠ ullongMax then .next [] { p with state := .bodyIdentity }
  else p.messageStep

/-- `s_headers_done`. -/
def headersDoneStep : ByteStep :=
  if ch = lf then { p with nread := 0 }.afterHeadersStep else .stop [] (p.fail .strict)

/-- `s_headers_almost_done`. -/
def headersAlmostDoneStep : ByteStep :=
  if ch = lf then
    if p.flags.trailing then p.messageStep
    else ({ p with
      state := .headersDone
      upgrade := p.flags.upgrade || p.method = HttpMethod.connect }.headersDoneStep ch).after
        .headersComplete
  else .stop [] (p.fail .strict)

/-- A character of a name. -/
def fieldByte : ParserCallback := .headerField p.httpMajor p.httpMinor [ch]

/-- `s_header_field_start`. -/
def headerFieldStartStep : ByteStep :=
  if ch = cr then .next [] { p with state := .headersAlmostDone }
  else if ch = lf then { p with state := .headersAlmostDone }.headersAlmostDoneStep ch
  else if token ch = 0 then .stop [] (p.fail .invalidHeaderToken)
  else .next [p.fieldByte ch] (p.startName (token ch))

/-- `s_header_field`. -/
def headerFieldStep : ByteStep :=
  if token ch ≠ 0 then p.acceptCase (p.matchName (token ch) ch) [p.fieldByte ch]
  else if ch = byte ':' then .next [] { p with state := .headerValueDiscardWs }
  else if ch = cr then .next [] { p with state := .headerAlmostDone }
  else if ch = lf then .next [] { p with state := .headerFieldStart }
  else .stop [] (p.fail .invalidHeaderToken)

/-- `s_header_value_start`. -/
def headerValueStartStep : ByteStep := (p.startValue ch).accept [.headerValue [ch]]

/-- `s_header_value_discard_ws`. -/
def headerValueDiscardWsStep : ByteStep :=
  if isBlankChar ch then .next [] p
  else if ch = cr then .next [] { p with state := .headerValueDiscardWsAlmostDone }
  else if ch = lf then .next [] { p with state := .headerValueDiscardLws }
  else p.headerValueStartStep ch

/-- `s_header_value`. -/
def headerValueStep : ByteStep :=
  if ch = cr then .next [] { p with state := .headerAlmostDone }
  else if ch = lf then
    let p := { p with state := .headerAlmostDone }
    p.acceptCase (p.plainCase ch) []
  else p.acceptCase (p.matchValue ch) [.headerValue [ch]]

/-- `s_header_value_lws`. -/
def headerValueLwsStep : ByteStep :=
  if isBlankChar ch then { p with state := .headerValueStart }.headerValueStartStep ch
  else { p.endHeader with state := .headerFieldStart }.headerFieldStartStep ch

/-- `s_header_value_discard_lws`. -/
def headerValueDiscardLwsStep : ByteStep :=
  if isBlankChar ch then .next [] { p with state := .headerValueDiscardWs }
  else ({ p with state := .headerFieldStart }.headerFieldStartStep ch).after (.headerValue [])

/-- `s_body_identity`. -/
def bodyIdentityStep : ByteStep :=
  let p := { p with contentLength := p.contentLength - 1 }
  if p.contentLength = 0 then { p with state := .messageDone }.messageStep.after (.body [ch])
  else .next [.body [ch]] p

/-- `s_chunk_data`. -/
def chunkDataStep : ByteStep :=
  let p := { p with contentLength := p.contentLength - 1 }
  .next [.body [ch]] (if p.contentLength = 0 then { p with state := .chunkDataAlmostDone } else p)

/-- `s_chunk_data_almost_done`. -/
def chunkDataAlmostDoneStep : ByteStep :=
  if ch = cr then .next [] { p with state := .chunkDataDone } else .stop [] (p.fail .strict)

/-- The byte in the state of the parser. -/
def stateStep : ByteStep :=
  match p.state with
  | .startReq => p.startReqStep ch
  | .reqUrl u => p.reqUrlStep ch u
  | .headerFieldStart => p.headerFieldStartStep ch
  | .headerField => p.headerFieldStep ch
  | .headerValueDiscardWs => p.headerValueDiscardWsStep ch
  | .headerValueDiscardLws => p.headerValueDiscardLwsStep ch
  | .headerValueStart => p.headerValueStartStep ch
  | .headerValue => p.headerValueStep ch
  | .headerValueLws => p.headerValueLwsStep ch
  | .headersAlmostDone => p.headersAlmostDoneStep ch
  | .headersDone => p.headersDoneStep ch
  | .bodyIdentity => p.bodyIdentityStep ch
  | .chunkData => p.chunkDataStep ch
  | .chunkDataAlmostDone => p.chunkDataAlmostDoneStep ch
  | .messageDone => p.messageStep
  | _ => p.acceptCase (p.plainCase ch) []

/-- **One byte.** -/
def step : ByteStep :=
  if p.state.parsingHeader then
    let p := { p with nread := p.nread + 1 }
    if httpMaxHeaderSize < p.nread then .stop [] (p.fail .headerOverflow) else p.stateStep ch
  else p.stateStep ch

end HttpParser

namespace HttpParser

variable {p p' : HttpParser} {ch : UInt8}

/-- What the characters of a name or a value leave as it is. -/
def known (p : HttpParser) : Bool × ℕ × ℕ × HttpMethod × Bool :=
  (p.flags.trailing, p.httpMajor, p.httpMinor, p.method, p.upgrade)

/-- The upgrade is known. -/
theorem upgrade_eq (h : p'.known = p.known) : p'.upgrade = p.upgrade :=
  congrArg (·.2.2.2.2) h

/-- A text that is looked for. -/
theorem matchText_known {c : UInt8} {found : HeaderState} (h : p.matchText c found = some p') :
    p'.known = p.known := by
  unfold matchText at h
  dsimp only at h
  split at h
  · obtain rfl := Option.some.inj h
    rfl
  · obtain ⟨expected, _, rfl⟩ := Option.map_eq_some_iff.mp h
    split_ifs <;> rfl

/-- A character of a name. -/
theorem matchName_known {c : UInt8} (h : p.matchName c ch = some p') : p'.known = p.known := by
  unfold matchName at h
  split at h
  case h_5 | h_6 | h_7 | h_8 | h_9 => exact matchText_known h
  case h_14 | h_15 | h_16 | h_17 | h_18 | h_19 => simp at h
  all_goals
    obtain rfl := Option.some.inj h
    first | rfl | (split_ifs <;> rfl)

/-- The first character of a value. -/
theorem startValue_known (p : HttpParser) (ch : UInt8) : (p.startValue ch).known = p.known := by
  unfold startValue
  dsimp only
  split
  case h_3 => split <;> rfl
  all_goals rfl

/-- A character of a value. -/
theorem matchValue_known (h : p.matchValue ch = some p') : p'.known = p.known := by
  unfold matchValue at h
  dsimp only at h
  split at h
  case h_5 | h_6 | h_7 => exact matchText_known h
  case h_2 | h_3 => simp at h
  all_goals
    obtain rfl := Option.some.inj h
    first | rfl | (split_ifs <;> rfl)

end HttpParser

/-- What becomes of some bytes. -/
structure Steps where
  /-- The callbacks. -/
  callbacks : List ParserCallback
  /-- The parser behind them. -/
  parser : HttpParser
  /-- The number of the bytes that were parsed. -/
  parsed : ℕ
  deriving DecidableEq, Repr

/-- A byte in front of the others. -/
def Steps.after (cbs : List ParserCallback) (r : Steps) : Steps :=
  { r with callbacks := cbs ++ r.callbacks, parsed := r.parsed + 1 }

namespace HttpParser

/-- One byte after the other. -/
def steps : HttpParser → Bytes → Steps
  | p, [] => ⟨[], p, 0⟩
  | p, ch :: rest =>
    match p.step ch with
    | .next cbs p => (p.steps rest).after cbs
    | .stop cbs p => ⟨cbs, p, if p.httpErrno = .ok then 1 else 0⟩

/-- The parser goes over some bytes without a stop. -/
inductive Reads : HttpParser → Bytes → List ParserCallback → HttpParser → Prop
  /-- There are none. -/
  | nil (p : HttpParser) : Reads p [] [] p
  /-- A byte, and more of them. -/
  | cons {p p' p'' : HttpParser} {ch : UInt8} {rest : Bytes} {cbs cbs' : List ParserCallback}
      (hstep : p.step ch = .next cbs p') (hrest : Reads p' rest cbs' p'') :
      Reads p (ch :: rest) (cbs ++ cbs') p''

/-- One byte. -/
theorem Reads.single {p p' : HttpParser} {ch : UInt8} {cbs : List ParserCallback}
    (h : p.step ch = .next cbs p') : Reads p [ch] cbs p' := by
  simpa using Reads.cons h (.nil p')

/-- Bytes and the ones behind them. -/
theorem Reads.append {p p' p'' : HttpParser} {bytes bytes' : Bytes}
    {cbs cbs' : List ParserCallback} (h : Reads p bytes cbs p') (h' : Reads p' bytes' cbs' p'') :
    Reads p (bytes ++ bytes') (cbs ++ cbs') p'' := by
  induction h with
  | nil => exact h'
  | cons hstep _ ih =>
    rw [List.cons_append, List.append_assoc]
    exact .cons hstep (ih h')

/-- What follows bytes that are read. -/
theorem Reads.steps_append {p p' : HttpParser} {bytes : Bytes} {cbs : List ParserCallback}
    (h : Reads p bytes cbs p') (rest : Bytes) :
    p.steps (bytes ++ rest) =
      ⟨cbs ++ (p'.steps rest).callbacks, (p'.steps rest).parser,
        bytes.length + (p'.steps rest).parsed⟩ := by
  induction h with
  | nil => simp
  | cons hstep _ ih =>
    rw [List.cons_append, steps, hstep]
    dsimp only
    rw [ih]
    simp only [Steps.after, List.append_assoc, List.length_cons, Steps.mk.injEq, true_and]
    omega

/-- Bytes that are read to the end. -/
theorem Reads.steps_eq {p p' : HttpParser} {bytes : Bytes} {cbs : List ParserCallback}
    (h : Reads p bytes cbs p') : p.steps bytes = ⟨cbs, p', bytes.length⟩ := by
  simpa [steps] using h.steps_append []

end HttpParser

end Khttp
