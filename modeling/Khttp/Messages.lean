import Khttp.RequestDelivery

/-!
# Messages of any shape

The parser reports a header line that has no colon without a value, and a message may have no
header lines at all. The callbacks of such messages are listed here, with what each callback
does to the parse status.
-/

namespace Khttp

open Lib

/-- A header line as the parser reports it. -/
structure ParsedLine where
  /-- The first fragment of the name. -/
  field : Bytes
  /-- The other fragments of the name. -/
  moreField : List Bytes
  /-- The fragments of the value, none for a line without a colon. -/
  values : List Bytes
  deriving DecidableEq, Repr

/-- The name of a header line. -/
def ParsedLine.name (line : ParsedLine) : Bytes := (line.field :: line.moreField).flatten

/-- The callbacks of a header line. -/
def ParsedLine.callbacks (major minor : ℕ) (line : ParsedLine) : List ParserCallback :=
  (line.field :: line.moreField).map (.headerField major minor) ++ line.values.map .headerValue

/-- A message as the parser reports it. -/
structure ParsedMessage where
  /-- The parser's method as text. -/
  method : Bytes
  /-- The first fragment of the target. -/
  url : Bytes
  /-- The other fragments of the target. -/
  moreUrl : List Bytes
  /-- `http_major`. -/
  major : ℕ
  /-- `http_minor`. -/
  minor : ℕ
  /-- The header lines. -/
  headers : List ParsedLine
  /-- The fragments of the body. -/
  bodies : List Bytes
  /-- The header lines behind a chunked body. -/
  trailers : List ParsedLine
  /-- A header line announces the chunked body. -/
  trailers_nil : headers = [] → trailers = []
  deriving DecidableEq, Repr

namespace ParsedMessage

/-- The target of a message. -/
def uri (m : ParsedMessage) : Bytes := (m.url :: m.moreUrl).flatten

/-- The callbacks of the target. -/
def urlCallbacks (m : ParsedMessage) : List ParserCallback :=
  (m.url :: m.moreUrl).map (.url m.method)

/-- The callbacks of some header lines. -/
def lineCallbacks (m : ParsedMessage) (lines : List ParsedLine) : List ParserCallback :=
  lines.flatMap (ParsedLine.callbacks m.major m.minor)

/-- The callbacks between the header lines and the end of a message. -/
def rest (m : ParsedMessage) : List ParserCallback :=
  .headersComplete :: (m.bodies.map .body ++ m.lineCallbacks m.trailers)

/-- The callbacks of a message. -/
def callbacks (m : ParsedMessage) : List ParserCallback :=
  .messageBegin :: (m.urlCallbacks ++ (m.lineCallbacks m.headers ++ (m.rest ++ [.messageComplete])))

/-- The callbacks of header lines are about fields and values. -/
theorem mem_lineCallbacks {m : ParsedMessage} {lines : List ParsedLine} {cb : ParserCallback}
    (h : cb ∈ m.lineCallbacks lines) :
    (∃ fragment, cb = .headerField m.major m.minor fragment) ∨
      ∃ fragment, cb = .headerValue fragment := by
  obtain ⟨line, _, hcb⟩ := List.mem_flatMap.mp h
  rcases List.mem_append.mp hcb with hcb | hcb
  · obtain ⟨fragment, _, rfl⟩ := List.mem_map.mp hcb
    exact Or.inl ⟨fragment, rfl⟩
  · obtain ⟨fragment, _, rfl⟩ := List.mem_map.mp hcb
    exact Or.inr ⟨fragment, rfl⟩

end ParsedMessage

namespace ServerParseStatus

/-- The callback that begins a message or gives a part of its target. -/
def Starts : ParserCallback → Prop
  | .messageBegin | .url _ _ => True
  | .headerField _ _ _ | .headerValue _ | .headersComplete | .body _ | .messageComplete => False

/-- What a callback can do, with the value it returns. -/
inductive CallbackMove (s : ServerParseStatus) : ParserCallback → ServerParseStatus → ℤ → Prop
  /-- A message begins. -/
  | messageBegin : CallbackMove s .messageBegin s.onMessageBegin 0
  /-- The request line is made again from this fragment. -/
  | url {method fragment : Bytes} {request : HttpRequest} {line : HttpRequestLine}
      (hrequest : s.currentRequest = some request)
      (hline : httpRequestLineNew (httpMethodFromstring method) none = some line) :
      CallbackMove s (.url method fragment)
        { s with
          currentRequest := some { request with
            req := some { line with uri := some (cstr fragment) } } } 0
  /-- The first header line of a message of another version. -/
  | otherVersion {major minor : ℕ} {fragment : Bytes} (hstate : s.parserHeaderState = .hstateNone)
      (hversion : requestVersion major minor = none) :
      CallbackMove s (.headerField major minor fragment)
        { s with parserCurrentHeader := some (httpHeaderNew (cstr fragment) none) } (-1)
  /-- The first header line, which brings the version. -/
  | firstField {major minor : ℕ} {fragment : Bytes} {version : HttpVersion}
      {request : HttpRequest} {line : HttpRequestLine} (hstate : s.parserHeaderState = .hstateNone)
      (hversion : requestVersion major minor = some version)
      (hrequest : s.currentRequest = some request) (hline : request.req = some line) :
      CallbackMove s (.headerField major minor fragment)
        { s with
          currentRequest := some { request with req := some { line with version } }
          parserCurrentHeader := some (httpHeaderNew (cstr fragment) none)
          parserHeaderState := .hstateField } 0
  /-- The next header line behind one that waits to be stored. -/
  | nextField {major minor : ℕ} {fragment : Bytes} {request : HttpRequest} {header : HttpHeader}
      (hstate : s.parserHeaderState = .hstateValue) (hheader : s.parserCurrentHeader = some header)
      (hrequest : s.currentRequest = some request) :
      CallbackMove s (.headerField major minor fragment)
        { s with
          currentRequest := some { request with headers := request.headers ++ [header] }
          parserCurrentHeader := some (httpHeaderNew (cstr fragment) none)
          parserHeaderState := .hstateField } 0
  /-- The next header line where none waits to be stored. -/
  | laterField {major minor : ℕ} {fragment : Bytes} (hstate : s.parserHeaderState = .hstateValue)
      (hheader : s.parserCurrentHeader = none) :
      CallbackMove s (.headerField major minor fragment)
        { s with
          parserCurrentHeader := some (httpHeaderNew (cstr fragment) none)
          parserHeaderState := .hstateField } 0
  /-- A fragment of a name behind another one. -/
  | moreField {major minor : ℕ} {fragment : Bytes} {header : HttpHeader}
      (hstate : s.parserHeaderState = .hstateField)
      (hheader : s.parserCurrentHeader = some header) :
      CallbackMove s (.headerField major minor fragment)
        { s with
          parserCurrentHeader := some { header with name := cstr header.name ++ cstr fragment }
          parserHeaderState := .hstateField } 0
  /-- A fragment of a value. -/
  | headerValue {fragment : Bytes} {header : HttpHeader}
      (hheader : s.parserCurrentHeader = some header) :
      CallbackMove s (.headerValue fragment)
        { s with
          parserCurrentHeader := some (httpHeaderAppendContent header (cstr fragment))
          parserHeaderState := .hstateValue } 0
  /-- The end of the header where no header line waits to be stored. -/
  | noHeader (hheader : s.parserCurrentHeader = none) : CallbackMove s .headersComplete s 0
  /-- The end of the header where the last header line waits to be stored. -/
  | headersComplete {request : HttpRequest} {header : HttpHeader}
      (hheader : s.parserCurrentHeader = some header)
      (hrequest : s.currentRequest = some request) :
      CallbackMove s .headersComplete
        { s with
          currentRequest := some { request with headers := request.headers ++ [header] }
          parserCurrentHeader := none } 0
  /-- A fragment of a body. -/
  | body {fragment : Bytes} {request request' : HttpRequest}
      (hrequest : s.currentRequest = some request)
      (hbody : httpRequestAppendBody request (cstr fragment) = some request') :
      CallbackMove s (.body fragment) { s with currentRequest := some request' } 0
  /-- A message is complete. -/
  | messageComplete : CallbackMove s .messageComplete s.onMessageComplete 0

/-- Every callback that has a result is one of these. -/
theorem callbackMove_of_callback {s t : ServerParseStatus} {cb : ParserCallback} {code : ℤ}
    (h : s.callback cb = some (t, code)) : CallbackMove s cb t code := by
  cases cb with
  | messageBegin =>
    obtain ⟨rfl, rfl⟩ := Prod.mk.inj (Option.some.inj h)
    exact .messageBegin
  | url method fragment =>
    simp only [callback, onUrl, Option.map_eq_some_iff, Option.bind_eq_bind,
      Option.bind_eq_some_iff] at h
    obtain ⟨u, ⟨request, hrequest, line, hline, hu⟩, hcode⟩ := h
    obtain rfl := Option.some.inj hu
    obtain ⟨rfl, rfl⟩ := Prod.mk.inj hcode
    exact .url hrequest hline
  | headerField major minor fragment =>
    simp only [callback, onHeaderField] at h
    split at h
    · next hstate =>
      cases hversion : requestVersion major minor with
      | none =>
        rw [hversion] at h
        obtain ⟨rfl, rfl⟩ := Prod.mk.inj (Option.some.inj h)
        exact .otherVersion hstate hversion
      | some version =>
        simp only [hversion, Option.bind_eq_bind, Option.bind_eq_some_iff] at h
        obtain ⟨request, hrequest, line, hline, h⟩ := h
        obtain ⟨rfl, rfl⟩ := Prod.mk.inj (Option.some.inj h)
        exact .firstField hstate hversion hrequest hline
    · next hstate =>
      simp only [Option.bind_eq_bind, Option.bind_eq_some_iff] at h
      obtain ⟨u, hu, h⟩ := h
      obtain ⟨rfl, rfl⟩ := Prod.mk.inj (Option.some.inj h)
      cases hheader : s.parserCurrentHeader with
      | none =>
        rw [hheader, Option.elim_none] at hu
        obtain rfl := Option.some.inj hu
        exact .laterField hstate hheader
      | some header =>
        rw [hheader, Option.elim_some] at hu
        obtain ⟨request, hrequest, rfl⟩ := Option.map_eq_some_iff.mp hu
        exact .nextField hstate hheader hrequest
    · next hstate =>
      simp only [Option.bind_eq_bind, Option.bind_eq_some_iff] at h
      obtain ⟨header, hheader, h⟩ := h
      obtain ⟨rfl, rfl⟩ := Prod.mk.inj (Option.some.inj h)
      exact .moreField hstate hheader
  | headerValue fragment =>
    simp only [callback, onHeaderValue, Option.map_eq_some_iff] at h
    obtain ⟨u, ⟨header, hheader, rfl⟩, hcode⟩ := h
    obtain ⟨rfl, rfl⟩ := Prod.mk.inj hcode
    exact .headerValue hheader
  | headersComplete =>
    simp only [callback, onHeadersComplete, Option.map_eq_some_iff] at h
    obtain ⟨u, hu, hcode⟩ := h
    obtain ⟨rfl, rfl⟩ := Prod.mk.inj hcode
    split at hu
    · next hheader =>
      obtain rfl := Option.some.inj hu
      exact .noHeader hheader
    · next header hheader =>
      obtain ⟨v, hv, rfl⟩ := Option.map_eq_some_iff.mp hu
      obtain ⟨request, hrequest, rfl⟩ := Option.map_eq_some_iff.mp hv
      exact .headersComplete hheader hrequest
  | body fragment =>
    simp only [callback, onBody, Option.map_eq_some_iff, Option.bind_eq_bind,
      Option.bind_eq_some_iff] at h
    obtain ⟨u, ⟨request, hrequest, request', hbody, hu⟩, hcode⟩ := h
    obtain rfl := Option.some.inj hu
    obtain ⟨rfl, rfl⟩ := Prod.mk.inj hcode
    exact .body hrequest hbody
  | messageComplete =>
    obtain ⟨rfl, rfl⟩ := Prod.mk.inj (Option.some.inj h)
    exact .messageComplete

/-- What holds before a list of callbacks and survives each of them holds behind it. -/
theorem execute_invariant {P : ServerParseStatus → Prop} {cbs : List ParserCallback}
    (hstep : ∀ cb ∈ cbs, ∀ s t code, P s → CallbackMove s cb t code → P t)
    {s t : ServerParseStatus} {ok : Bool} (hs : P s) (h : s.execute cbs = some (t, ok)) : P t := by
  induction cbs generalizing s with
  | nil =>
    obtain ⟨rfl, rfl⟩ := Prod.mk.inj (Option.some.inj h)
    exact hs
  | cons cb cbs ih =>
    rw [execute.eq_2] at h
    cases hcb : s.callback cb with
    | none => simp [hcb] at h
    | some result =>
      obtain ⟨u, code⟩ := result
      have hu : P u := hstep cb (by simp) s u code hs (callbackMove_of_callback hcb)
      rw [hcb] at h
      split at h
      · simp at h
      · next u' heq =>
        obtain ⟨rfl, rfl⟩ := Prod.mk.inj (Option.some.inj heq)
        exact ih (fun cb' hcb' => hstep cb' (by simp [hcb'])) hu h
      · next u' code' heq =>
        obtain ⟨rfl, rfl⟩ := Prod.mk.inj (Option.some.inj heq)
        obtain ⟨rfl, rfl⟩ := Prod.mk.inj (Option.some.inj h)
        exact hu

/-- A callback that does not return zero is the last. -/
theorem execute_stopped {s t : ServerParseStatus} {cbs : List ParserCallback}
    (h : s.execute cbs = some (t, false)) (later : List ParserCallback) :
    s.execute (cbs ++ later) = some (t, false) := by
  induction cbs generalizing s with
  | nil => simp [execute] at h
  | cons cb cbs ih =>
    rw [List.cons_append, execute.eq_2]
    rw [execute.eq_2] at h
    split at h
    · simp at h
    · exact ih h
    · exact h

/-- A first callback and the others. -/
theorem execute_cons_true {s t : ServerParseStatus} {cb : ParserCallback}
    {cbs : List ParserCallback} (h : s.execute (cb :: cbs) = some (t, true)) :
    ∃ u, CallbackMove s cb u 0 ∧ u.execute cbs = some (t, true) := by
  rw [execute.eq_2] at h
  split at h
  · simp at h
  · next u heq => exact ⟨u, callbackMove_of_callback heq, h⟩
  · simp at h

/-- Nothing can be appended to a body of type `BODY_NONE`. -/
theorem httpRequestAppendBody_eq_none {request : HttpRequest}
    (h : request.body.type = .bodyNone) (fragment : Bytes) :
    httpRequestAppendBody request fragment = none := by
  simp [httpRequestAppendBody, HttpBody.appendStr, h]

/-- No callback gives the current request a body. -/
theorem CallbackMove.noBody {s t : ServerParseStatus} {cb : ParserCallback} {code : ℤ}
    (h : CallbackMove s cb t code) (hs : s.NoBody) : t.NoBody := by
  cases h with
  | messageBegin =>
    intro request hrequest
    obtain rfl := Option.some.inj hrequest
    rfl
  | url hrequest _ => exact hs.of_some hrequest rfl rfl
  | firstField _ _ hrequest _ => exact hs.of_some hrequest rfl rfl
  | nextField _ _ hrequest => exact hs.of_some hrequest rfl rfl
  | headersComplete _ hrequest => exact hs.of_some hrequest rfl rfl
  | body hrequest hbody =>
    rw [httpRequestAppendBody_eq_none (hs _ hrequest)] at hbody
    simp at hbody
  | otherVersion | laterField | moreField | headerValue | noHeader | messageComplete => exact hs

end ServerParseStatus

end Khttp
