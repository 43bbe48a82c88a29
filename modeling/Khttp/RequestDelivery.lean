import Khttp.Lib.Machine
import Khttp.ReadPass

/-!
# Requests that arrive in arbitrary reads

The parser reports one message after the other, and its callbacks are cut into reads
at any place. A read pass looks once per read whether a request is complete, so a
request is lost where the same read goes on into the next message.
-/

namespace Khttp

open Lib

/-- A header line as the parser delivers it: a name and a value, in fragments. -/
structure HeaderLine where
  /-- The first fragment of the name. -/
  field : Bytes
  /-- The other fragments of the name. -/
  moreField : List Bytes
  /-- The first fragment of the value. -/
  value : Bytes
  /-- The other fragments of the value. -/
  moreValue : List Bytes
  deriving DecidableEq, Repr

/-- The callbacks of a header line in a message of version 1.minor. -/
def HeaderLine.callbacks (minor : ℕ) (line : HeaderLine) : List ParserCallback :=
  (line.field :: line.moreField).map (.headerField 1 minor) ++
    (line.value :: line.moreValue).map .headerValue

/-- A well-formed request as the parser delivers it. -/
structure Message where
  /-- The parser's method as text. -/
  method : Bytes
  /-- The first fragment of the target. -/
  url : Bytes
  /-- The other fragments of the target. -/
  moreUrl : List Bytes
  /-- `http_minor`; the major version is one. -/
  minor : ℕ
  /-- The version is 1.0 or 1.1. -/
  minor_le : minor ≤ 1
  /-- The header lines. -/
  headers : List HeaderLine
  /-- The fragments of the body. -/
  bodies : List Bytes
  /-- The header lines behind a chunked body. -/
  trailers : List HeaderLine
  deriving DecidableEq, Repr

namespace Message

/-- The callbacks between the first and the last one of a message. -/
def inner (m : Message) : List ParserCallback :=
  (m.url :: m.moreUrl).map (.url m.method) ++ m.headers.flatMap (HeaderLine.callbacks m.minor) ++
    [.headersComplete] ++ m.bodies.map .body ++ m.trailers.flatMap (HeaderLine.callbacks m.minor)

/-- The callbacks of a message. -/
def callbacks (m : Message) : List ParserCallback :=
  .messageBegin :: m.inner ++ [.messageComplete]

/-- The request that the callbacks of a message build by themselves. -/
def request (m : Message) : Option HttpRequest :=
  (ServerParseStatus.new.execute m.callbacks).bind fun (s, _) => s.currentRequest

end Message

/-- The read side of a connection, with a record of the requests it was given. -/
structure ReadRun where
  /-- The connection. -/
  conn : ServerConnection
  /-- The requests appended to `pending_requests` so far. -/
  appended : List HttpRequest

/-- What may happen to the read side of a connection. -/
inductive ReadAction where
  /-- A read pass. -/
  | read (result : SocketRead)
  /-- A worker takes the first pending request, if there is one. -/
  | takeRequest
  deriving DecidableEq, Repr

/-- The read side of a connection as a machine, from `server_connection_new` on. -/
def readMachine (errorPage : Option Bytes) : Machine ReadRun ReadAction where
  init := ⟨.new 0, []⟩
  step s
    | .read result => (serverLoopRead errorPage s.conn result).map fun pass =>
        ⟨pass.conn, s.appended ++ pass.appended⟩
    | .takeRequest =>
        some { s with conn.pendingRequests := s.conn.pendingRequests.tail }

/-- What the read loop hands on: a response that it queues itself, or a request for the workers. -/
inductive ReadEvent where
  | response (response : HttpResponse)
  | request (request : HttpRequest)
  deriving DecidableEq, Repr

/-- What a step hands on. -/
def ReadRun.events (s t : ReadRun) : List ReadEvent :=
  (t.conn.out.pendingResponses.drop s.conn.out.pendingResponses.length).map .response ++
    (t.appended.drop s.appended.length).map .request

/-- The interim response of the read loop. -/
def interim : ReadEvent := .response (httpResponseNew (httpResponseLineNew 100))

/-- What a run hands on. -/
def runEvents (errorPage : Option Bytes) (s : ReadRun) : List ReadAction → Option (List ReadEvent)
  | [] => some []
  | a :: actions => ((readMachine errorPage).step s a).bind fun t =>
      (runEvents errorPage t actions).map (s.events t ++ ·)

/-- What the parser does in an action. -/
def ReadAction.run : ReadAction → Option ParserRun
  | .read (.data run) => some run
  | .read .wouldBlock | .read .failed | .read .eof | .takeRequest => none

/-- The callbacks of each read. -/
def deliveries (actions : List ReadAction) : List (List ParserCallback) :=
  (actions.filterMap ReadAction.run).map ParserRun.callbacks

/-- All bytes are parsed and ask for no upgrade. -/
def Accepted (actions : List ReadAction) : Prop :=
  ∀ run ∈ actions.filterMap ReadAction.run, run.upgrade = false ∧ run.parsed = true

instance (actions : List ReadAction) : Decidable (Accepted actions) :=
  inferInstanceAs (Decidable (∀ run ∈ actions.filterMap ReadAction.run, _))

/-- What has been delivered behind each read. -/
def readEnds (delivered : List ParserCallback) :
    List (List ParserCallback) → List (List ParserCallback)
  | [] => []
  | cbs :: rest => (delivered ++ cbs) :: readEnds (delivered ++ cbs) rest

/-- What the reads of these messages hand on: for each message an interim response at every end of
a read at which it counts as open, and then its request. -/
def expectedEvents (isOpen : Message → List ParserCallback → Bool) :
    List Message → List (List ParserCallback) → List ReadEvent
  | [], _ => []
  | m :: rest, ends =>
    List.replicate (ends.countP (isOpen m)) interim ++ m.request.toList.map .request ++
      expectedEvents isOpen rest (ends.map (List.drop m.callbacks.length))

/-- The read passes append exactly the requests of the messages, each once and in order. -/
def AppendsRequests (errorPage : Option Bytes) (messages : List Message)
    (actions : List ReadAction) : Prop :=
  ∃ s, (readMachine errorPage).run actions = some s ∧
    s.appended.map some = messages.map Message.request

/-- No message begins in the read behind the end of another one. -/
def OneMessage (cbs : List ParserCallback) : Prop :=
  cbs.Pairwise fun c d => c = .messageComplete → d ≠ .messageBegin

instance (cbs : List ParserCallback) : Decidable (OneMessage cbs) :=
  inferInstanceAs (Decidable (cbs.Pairwise _))

namespace ServerParseStatus

/-- The state between two callbacks of a message whose request line is known and whose
last header line is complete. -/
structure Ready (s : ServerParseStatus) : Prop where
  /-- The request line is known. -/
  line : ∃ request line, s.currentRequest = some request ∧ request.req = some line
  /-- No name is waiting for its value. -/
  state : s.parserHeaderState ≠ .hstateField

/-- The state behind a fragment of a name, or of a value. -/
structure InHeader (s : ServerParseStatus) : Prop where
  /-- The request line is known. -/
  line : ∃ request line, s.currentRequest = some request ∧ request.req = some line
  /-- A header is being built. -/
  header : ∃ header, s.parserCurrentHeader = some header

/-- The first fragment of a name begins a header. -/
theorem Ready.field {s : ServerParseStatus} (h : s.Ready) {minor : ℕ} (hminor : minor ≤ 1)
    (fragment : Bytes) :
    ∃ t, s.callback (.headerField 1 minor fragment) = some (t, 0) ∧ t.InHeader ∧
      t.parserHeaderState = .hstateField := by
  obtain ⟨request, line, hrequest, hline⟩ := h.line
  simp only [callback, onHeaderField]
  cases hstate : s.parserHeaderState with
  | hstateNone =>
    obtain ⟨version, hversion⟩ := exists_requestVersion hminor
    simp only [hversion, hrequest, hline, Option.bind_eq_bind, Option.bind_some]
    exact ⟨_, rfl, ⟨⟨_, _, rfl, rfl⟩, ⟨_, rfl⟩⟩, rfl⟩
  | hstateValue =>
    cases hheader : s.parserCurrentHeader with
    | none =>
      simp only [Option.elim_none, Option.bind_eq_bind, Option.bind_some]
      exact ⟨_, rfl, ⟨⟨request, line, hrequest, hline⟩, ⟨_, rfl⟩⟩, rfl⟩
    | some header =>
      simp only [Option.elim_some, saveHeader, hrequest, Option.map_some, Option.bind_eq_bind,
        Option.bind_some]
      exact ⟨_, rfl, ⟨⟨_, line, rfl, hline⟩, ⟨_, rfl⟩⟩, rfl⟩
  | hstateField => exact absurd hstate h.state

/-- Further fragments of a name continue the header. -/
theorem InHeader.fields {s : ServerParseStatus} (h : s.InHeader)
    (hstate : s.parserHeaderState = .hstateField) (minor : ℕ) (fragments : List Bytes) :
    ∃ t, s.execute (fragments.map (.headerField 1 minor)) = some (t, true) ∧ t.InHeader := by
  induction fragments generalizing s with
  | nil => exact ⟨s, rfl, h⟩
  | cons fragment fragments ih =>
    obtain ⟨header, hheader⟩ := h.header
    have hstep : ∃ t, s.callback (.headerField 1 minor fragment) = some (t, 0) ∧ t.InHeader ∧
        t.parserHeaderState = .hstateField := by
      simp only [callback, onHeaderField, hstate, hheader, Option.bind_eq_bind, Option.bind_some]
      exact ⟨_, rfl, ⟨h.line, ⟨_, rfl⟩⟩, rfl⟩
    obtain ⟨t, ht, hin, htstate⟩ := hstep
    obtain ⟨u, hu, hready⟩ := ih hin htstate
    refine ⟨u, ?_, hready⟩
    rw [List.map_cons, execute.eq_2, ht]
    exact hu

/-- The fragments of a value complete the header. -/
theorem InHeader.values {s : ServerParseStatus} (h : s.InHeader) (fragment : Bytes)
    (fragments : List Bytes) :
    ∃ t, s.execute ((fragment :: fragments).map .headerValue) = some (t, true) ∧ t.Ready := by
  induction fragments generalizing s fragment with
  | nil =>
    obtain ⟨header, hheader⟩ := h.header
    have hstep : ∃ t, s.callback (.headerValue fragment) = some (t, 0) ∧ t.Ready := by
      simp only [callback, onHeaderValue, hheader, Option.map_some]
      exact ⟨_, rfl, ⟨h.line, by simp⟩⟩
    obtain ⟨t, ht, hready⟩ := hstep
    refine ⟨t, ?_, hready⟩
    rw [List.map_cons, execute.eq_2, ht]
    rfl
  | cons next fragments ih =>
    obtain ⟨header, hheader⟩ := h.header
    have hstep : ∃ t, s.callback (.headerValue fragment) = some (t, 0) ∧ t.InHeader := by
      simp only [callback, onHeaderValue, hheader, Option.map_some]
      exact ⟨_, rfl, ⟨h.line, ⟨_, rfl⟩⟩⟩
    obtain ⟨t, ht, hin⟩ := hstep
    obtain ⟨u, hu, hready⟩ := ih hin next
    refine ⟨u, ?_, hready⟩
    rw [List.map_cons, execute.eq_2, ht]
    exact hu

/-- Header lines are read one after the other. -/
theorem Ready.lines {s : ServerParseStatus} (h : s.Ready) {minor : ℕ} (hminor : minor ≤ 1)
    (lines : List HeaderLine) :
    ∃ t, s.execute (lines.flatMap (HeaderLine.callbacks minor)) = some (t, true) ∧ t.Ready := by
  induction lines generalizing s with
  | nil => exact ⟨s, rfl, h⟩
  | cons line lines ih =>
    obtain ⟨t, ht, hin, hstate⟩ := h.field hminor line.field
    obtain ⟨u, hu, hin⟩ := hin.fields hstate minor line.moreField
    obtain ⟨v, hv, hready⟩ := hin.values line.value line.moreValue
    obtain ⟨w, hw, hready⟩ := ih hready
    refine ⟨w, ?_, hready⟩
    have hline : s.execute (HeaderLine.callbacks minor line) = some (v, true) := by
      have hfields : s.execute ((line.field :: line.moreField).map (.headerField 1 minor)) =
          some (u, true) := by
        rw [List.map_cons, execute.eq_2, ht]
        exact hu
      rw [HeaderLine.callbacks, execute_append hfields, hv]
    rw [List.flatMap_cons, execute_append hline, hw]

/-- The fragments of a target give the request its line. -/
theorem execute_urls {s : ServerParseStatus} {request : HttpRequest}
    (hrequest : s.currentRequest = some request) (hstate : s.parserHeaderState ≠ .hstateField)
    (method url : Bytes) (urls : List Bytes) :
    ∃ t, s.execute ((url :: urls).map (.url method)) = some (t, true) ∧ t.Ready := by
  induction urls generalizing s url request with
  | nil =>
    obtain ⟨line, hline⟩ := exists_httpRequestLineNew method
    have hstep : ∃ t, s.callback (.url method url) = some (t, 0) ∧ t.Ready := by
      simp only [callback, onUrl, hrequest, hline, Option.bind_eq_bind, Option.bind_some,
        Option.map_some]
      exact ⟨_, rfl, ⟨⟨_, _, rfl, rfl⟩, hstate⟩⟩
    obtain ⟨t, ht, hready⟩ := hstep
    refine ⟨t, ?_, hready⟩
    rw [List.map_cons, execute.eq_2, ht]
    rfl
  | cons next urls ih =>
    obtain ⟨line, hline⟩ := exists_httpRequestLineNew method
    have hstep : ∃ t r, s.callback (.url method url) = some (t, 0) ∧ t.currentRequest = some r ∧
        t.parserHeaderState ≠ .hstateField := by
      simp only [callback, onUrl, hrequest, hline, Option.bind_eq_bind, Option.bind_some,
        Option.map_some]
      exact ⟨_, _, rfl, rfl, hstate⟩
    obtain ⟨t, r, ht, hr, htstate⟩ := hstep
    obtain ⟨u, hu, hready⟩ := ih hr htstate next
    refine ⟨u, ?_, hready⟩
    rw [List.map_cons, execute.eq_2, ht]
    exact hu

/-- The end of the header saves the last header line. -/
theorem Ready.headersComplete {s : ServerParseStatus} (h : s.Ready) :
    ∃ t, s.execute [.headersComplete] = some (t, true) ∧ t.Ready := by
  obtain ⟨request, line, hrequest, hline⟩ := h.line
  cases hheader : s.parserCurrentHeader with
  | none => exact ⟨s, by simp [execute, callback, onHeadersComplete, hheader], h⟩
  | some header =>
    have hstep : ∃ t, s.callback .headersComplete = some (t, 0) ∧ t.Ready := by
      simp only [callback, onHeadersComplete, hheader, saveHeader, hrequest, Option.map_some]
      exact ⟨_, rfl, ⟨⟨_, line, rfl, hline⟩, h.state⟩⟩
    obtain ⟨t, ht, hready⟩ := hstep
    refine ⟨t, ?_, hready⟩
    rw [execute.eq_2, ht]
    rfl

/-- The callbacks of a message without a body run to its completed request. -/
theorem execute_message {m : Message} (hbodies : m.bodies = []) :
    ∃ t request, new.execute m.callbacks = some (t, true) ∧ t.currentRequest = some request := by
  have hbegin : new.execute [.messageBegin] = some (new.onMessageBegin, true) := rfl
  obtain ⟨s₁, h₁, hready₁⟩ := execute_urls
    (show new.onMessageBegin.currentRequest = some httpRequestNew from rfl) (by decide)
    m.method m.url m.moreUrl
  obtain ⟨s₂, h₂, hready₂⟩ := hready₁.lines m.minor_le m.headers
  obtain ⟨s₃, h₃, hready₃⟩ := hready₂.headersComplete
  obtain ⟨s₄, h₄, hready₄⟩ := hready₃.lines m.minor_le m.trailers
  obtain ⟨request, _, hrequest, _⟩ := hready₄.line
  have hinner : new.onMessageBegin.execute m.inner = some (s₄, true) := by
    rw [Message.inner, hbodies, List.map_nil, List.append_nil, List.append_assoc,
      List.append_assoc, execute_append h₁, execute_append h₂, execute_append h₃, h₄]
  refine ⟨s₄.onMessageComplete, request, ?_, hrequest⟩
  have hrest : new.onMessageBegin.execute (m.inner ++ [.messageComplete]) =
      some (s₄.onMessageComplete, true) := by
    rw [execute_append hinner]
    rfl
  rw [Message.callbacks, List.cons_append, ← List.singleton_append, execute_append hbegin, hrest]

/-- How a callback changes whether the request is complete. -/
def completeAfter (complete : Bool) : ParserCallback → Bool
  | .messageBegin => false
  | .messageComplete => true
  | .url _ _ | .headerField _ _ _ | .headerValue _ | .headersComplete | .body _ => complete

/-- The current request has a body of type `BODY_NONE`, as `http_request_new` makes it. -/
def NoBody (s : ServerParseStatus) : Prop :=
  ∀ request, s.currentRequest = some request → request.body.type = .bodyNone

/-- A callback that a message of version 1.0 or 1.1 without a body may make. -/
def Plain : ParserCallback → Prop
  | .headerField major minor _ => major = 1 ∧ minor ≤ 1
  | .body _ => False
  | .messageBegin | .url _ _ | .headerValue _ | .headersComplete | .messageComplete => True

/-- A request that is changed in its line or headers keeps its body. -/
theorem NoBody.of_some {s t : ServerParseStatus} {request request' : HttpRequest}
    (h : s.NoBody) (hs : s.currentRequest = some request) (ht : t.currentRequest = some request')
    (hbody : request'.body = request.body) : t.NoBody := by
  intro r hr
  obtain rfl := Option.some.inj (ht.symm.trans hr)
  rw [hbody]
  exact h request hs

/-- No body can be appended to a request that `http_request_new` made. -/
theorem onBody_eq_none {s : ServerParseStatus} (h : s.NoBody) (fragment : Bytes) :
    s.onBody fragment = none := by
  unfold onBody
  cases hrequest : s.currentRequest with
  | none => rfl
  | some request =>
    have htype := h request hrequest
    simp [httpRequestAppendBody, HttpBody.appendStr, htype]

/-- A saved header leaves the request its body and the flag. -/
theorem saveHeader_spec {s t : ServerParseStatus} {header : HttpHeader} (h : s.NoBody)
    (hsave : s.saveHeader header = some t) :
    t.requestComplete = s.requestComplete ∧ t.NoBody := by
  obtain ⟨request, hrequest, rfl⟩ := Option.map_eq_some_iff.mp hsave
  exact ⟨rfl, h.of_some hrequest rfl rfl⟩

/-- The field callback leaves the request its body and the flag, and returns zero in a
message of version 1.0 or 1.1. -/
theorem onHeaderField_spec {s t : ServerParseStatus} {major minor : ℕ} {fragment : Bytes}
    {code : ℤ} (hs : s.NoBody) (hversion : major = 1 ∧ minor ≤ 1)
    (h : s.onHeaderField major minor fragment = some (t, code)) :
    t.requestComplete = s.requestComplete ∧ t.NoBody ∧ code = 0 := by
  obtain ⟨rfl, hminor⟩ := hversion
  unfold onHeaderField at h
  split at h
  · obtain ⟨version, hversion⟩ := exists_requestVersion hminor
    simp only [hversion, Option.bind_eq_bind, Option.bind_eq_some_iff] at h
    obtain ⟨request, hrequest, line, _, h⟩ := h
    obtain ⟨rfl, rfl⟩ := Prod.mk.inj (Option.some.inj h)
    exact ⟨rfl, hs.of_some hrequest rfl rfl, rfl⟩
  · simp only [Option.bind_eq_bind, Option.bind_eq_some_iff] at h
    obtain ⟨u, hu, h⟩ := h
    obtain ⟨rfl, rfl⟩ := Prod.mk.inj (Option.some.inj h)
    cases hheader : s.parserCurrentHeader with
    | none =>
      rw [hheader, Option.elim_none] at hu
      obtain rfl := Option.some.inj hu
      exact ⟨rfl, hs, rfl⟩
    | some header =>
      rw [hheader, Option.elim_some] at hu
      obtain ⟨hflag, hu⟩ := saveHeader_spec hs hu
      exact ⟨hflag, hu, rfl⟩
  · simp only [Option.bind_eq_bind, Option.bind_eq_some_iff] at h
    obtain ⟨header, _, h⟩ := h
    obtain ⟨rfl, rfl⟩ := Prod.mk.inj (Option.some.inj h)
    exact ⟨rfl, hs, rfl⟩

/-- What a callback does to the flag and the body: a fragment of a body has no result. -/
theorem callback_spec {s t : ServerParseStatus} {cb : ParserCallback} {code : ℤ}
    (hs : s.NoBody) (hversion : ∀ major minor fragment, cb = .headerField major minor fragment →
      major = 1 ∧ minor ≤ 1) (h : s.callback cb = some (t, code)) :
    t.requestComplete = completeAfter s.requestComplete cb ∧ t.NoBody ∧ code = 0 ∧ Plain cb := by
  cases cb with
  | messageBegin =>
    obtain ⟨rfl, rfl⟩ := Prod.mk.inj (Option.some.inj h)
    refine ⟨rfl, ?_, rfl, trivial⟩
    intro request hrequest
    obtain rfl := Option.some.inj hrequest
    rfl
  | url method fragment =>
    simp only [callback, onUrl, Option.map_eq_some_iff, Option.bind_eq_bind,
      Option.bind_eq_some_iff] at h
    obtain ⟨u, ⟨request, hrequest, line, _, hu⟩, hcode⟩ := h
    obtain rfl := Option.some.inj hu
    obtain ⟨rfl, rfl⟩ := Prod.mk.inj hcode
    exact ⟨rfl, hs.of_some hrequest rfl rfl, rfl, trivial⟩
  | headerField major minor fragment =>
    have hplain := hversion major minor fragment rfl
    obtain ⟨hflag, ht, hcode⟩ := onHeaderField_spec hs hplain h
    exact ⟨hflag, ht, hcode, hplain⟩
  | headerValue fragment =>
    simp only [callback, onHeaderValue, Option.map_eq_some_iff] at h
    obtain ⟨u, ⟨header, _, rfl⟩, hcode⟩ := h
    obtain ⟨rfl, rfl⟩ := Prod.mk.inj hcode
    exact ⟨rfl, hs, rfl, trivial⟩
  | headersComplete =>
    simp only [callback, onHeadersComplete, Option.map_eq_some_iff] at h
    obtain ⟨u, hu, hcode⟩ := h
    obtain ⟨rfl, rfl⟩ := Prod.mk.inj hcode
    split at hu
    · obtain rfl := Option.some.inj hu
      exact ⟨rfl, hs, rfl, trivial⟩
    · obtain ⟨v, hv, rfl⟩ := Option.map_eq_some_iff.mp hu
      obtain ⟨hflag, hv⟩ := saveHeader_spec hs hv
      exact ⟨hflag, hv, rfl, trivial⟩
  | body fragment =>
    simp [callback, onBody_eq_none hs] at h
  | messageComplete =>
    obtain ⟨rfl, rfl⟩ := Prod.mk.inj (Option.some.inj h)
    exact ⟨rfl, hs, rfl, trivial⟩

/-- What callbacks that have a result do to the flag and the body. -/
theorem execute_spec {s t : ServerParseStatus} {cbs : List ParserCallback} {ok : Bool}
    (hs : s.NoBody) (hversion : ∀ major minor fragment,
      .headerField major minor fragment ∈ cbs → major = 1 ∧ minor ≤ 1)
    (h : s.execute cbs = some (t, ok)) :
    t.requestComplete = cbs.foldl completeAfter s.requestComplete ∧ t.NoBody ∧ ok = true ∧
      ∀ cb ∈ cbs, Plain cb := by
  induction cbs generalizing s with
  | nil =>
    obtain ⟨rfl, rfl⟩ := Prod.mk.inj (Option.some.inj h)
    exact ⟨rfl, hs, rfl, by simp⟩
  | cons cb cbs ih =>
    rw [execute.eq_2] at h
    cases hcb : s.callback cb with
    | none => simp [hcb] at h
    | some result =>
      obtain ⟨u, code⟩ := result
      obtain ⟨hflag, hu, rfl, hplain⟩ := callback_spec hs
        (fun major minor fragment heq => hversion major minor fragment (by simp [heq])) hcb
      rw [hcb] at h
      obtain ⟨hflag', ht, hok, hplain'⟩ := ih hu
        (fun major minor fragment hmem => hversion major minor fragment (by simp [hmem])) h
      refine ⟨by rw [hflag', hflag, List.foldl_cons], ht, hok, ?_⟩
      intro cb' hcb'
      rcases List.mem_cons.mp hcb' with rfl | hcb'
      · exact hplain
      · exact hplain' cb' hcb'

/-- The parse status of a new connection has no request. -/
theorem NoBody.new : ServerParseStatus.new.NoBody := by
  intro request hrequest
  simp [ServerParseStatus.new] at hrequest

end ServerParseStatus

/-- How many messages are dropped while a list of callbacks is delivered: those that
are complete when the next one begins or completes. -/
def dropped (complete : Bool) : List ParserCallback → ℕ
  | [] => 0
  | .messageBegin :: cbs => complete.toNat + dropped false cbs
  | .messageComplete :: cbs => complete.toNat + dropped true cbs
  | .url _ _ :: cbs | .headerField _ _ _ :: cbs | .headerValue _ :: cbs
  | .headersComplete :: cbs | .body _ :: cbs => dropped complete cbs

/-- Every message that completes is dropped or is the one complete at the end. -/
theorem count_messageComplete (complete : Bool) (cbs : List ParserCallback) :
    complete.toNat + cbs.count .messageComplete =
      (cbs.foldl ServerParseStatus.completeAfter complete).toNat + dropped complete cbs := by
  induction cbs generalizing complete with
  | nil => rfl
  | cons cb cbs ih =>
    cases cb with
    | messageBegin =>
      have := ih false
      simp [dropped, ServerParseStatus.completeAfter] at this ⊢
      omega
    | messageComplete =>
      have := ih true
      simp [dropped, ServerParseStatus.completeAfter] at this ⊢
      omega
    | _ => simpa [dropped, ServerParseStatus.completeAfter] using ih complete

/-- Where nothing is dropped, no message begins behind the end of another one. -/
theorem oneMessage_of_dropped {complete : Bool} {cbs : List ParserCallback}
    (h : dropped complete cbs = 0) :
    OneMessage cbs ∧ (complete = true → .messageBegin ∉ cbs) := by
  induction cbs generalizing complete with
  | nil => exact ⟨List.Pairwise.nil, by simp⟩
  | cons cb cbs ih =>
    cases cb with
    | messageBegin =>
      simp only [dropped, Nat.add_eq_zero_iff] at h
      refine ⟨List.pairwise_cons.mpr ⟨by simp, (ih h.2).1⟩, ?_⟩
      rintro rfl
      simp at h
    | messageComplete =>
      simp only [dropped, Nat.add_eq_zero_iff] at h
      obtain ⟨hone, hbegin⟩ := ih h.2
      refine ⟨List.pairwise_cons.mpr ⟨?_, hone⟩, ?_⟩
      · rintro cb hcb _ rfl
        exact hbegin rfl hcb
      · rintro rfl
        simp at h
    | _ =>
      obtain ⟨hone, hbegin⟩ := ih h
      exact ⟨List.pairwise_cons.mpr ⟨by simp, hone⟩, by simpa using hbegin⟩

namespace Message

/-- The callbacks inside a message neither begin nor complete one. -/
theorem mem_inner {m : Message} {cb : ParserCallback} (h : cb ∈ m.inner) :
    cb ≠ .messageBegin ∧ cb ≠ .messageComplete ∧
      ∀ major minor fragment, cb = .headerField major minor fragment → major = 1 ∧ minor ≤ 1 := by
  have hline {lines : List HeaderLine} (h : cb ∈ lines.flatMap (HeaderLine.callbacks m.minor)) :
      cb ≠ .messageBegin ∧ cb ≠ .messageComplete ∧
        ∀ major minor fragment, cb = .headerField major minor fragment →
          major = 1 ∧ minor ≤ 1 := by
    obtain ⟨line, _, hcb⟩ := List.mem_flatMap.mp h
    rcases List.mem_append.mp hcb with hcb | hcb
    · obtain ⟨fragment, _, rfl⟩ := List.mem_map.mp hcb
      refine ⟨by simp, by simp, ?_⟩
      rintro major minor fragment' heq
      obtain ⟨rfl, rfl, _⟩ := ParserCallback.headerField.inj heq
      exact ⟨rfl, m.minor_le⟩
    · obtain ⟨fragment, _, rfl⟩ := List.mem_map.mp hcb
      exact ⟨by simp, by simp, by simp⟩
  unfold inner at h
  rcases List.mem_append.mp h with h | h
  · rcases List.mem_append.mp h with h | h
    · rcases List.mem_append.mp h with h | h
      · rcases List.mem_append.mp h with h | h
        · obtain ⟨url, _, rfl⟩ := List.mem_map.mp h
          exact ⟨by simp, by simp, by simp⟩
        · exact hline h
      · obtain rfl := List.mem_singleton.mp h
        exact ⟨by simp, by simp, by simp⟩
    · obtain ⟨body, _, rfl⟩ := List.mem_map.mp h
      exact ⟨by simp, by simp, by simp⟩
  · exact hline h

/-- Every message completes once. -/
theorem count_callbacks (m : Message) : m.callbacks.count .messageComplete = 1 := by
  have hinner : m.inner.count .messageComplete = 0 :=
    List.count_eq_zero.mpr fun h => (mem_inner h).2.1 rfl
  simp [callbacks, hinner]

/-- The versions in the callbacks of messages are 1.0 and 1.1. -/
theorem version_callbacks {messages : List Message} {major minor : ℕ} {fragment : Bytes}
    (h : .headerField major minor fragment ∈ messages.flatMap callbacks) :
    major = 1 ∧ minor ≤ 1 := by
  obtain ⟨m, _, hm⟩ := List.mem_flatMap.mp h
  unfold callbacks at hm
  rw [List.cons_append, List.mem_cons, List.mem_append, List.mem_singleton] at hm
  rcases hm with hm | hm | hm
  · simp at hm
  · exact (mem_inner hm).2.2 major minor fragment rfl
  · simp at hm

/-- A part of a message that is not all of it does not complete it. -/
theorem notMem_of_initial {m : Message} {cbs : List ParserCallback} (hpre : cbs <+: m.callbacks)
    (hlt : cbs.length < m.callbacks.length) : .messageComplete ∉ cbs := by
  intro hmem
  have hpre' : cbs <+: .messageBegin :: m.inner := by
    apply List.prefix_of_prefix_length_le hpre (List.prefix_append _ _)
    simp only [callbacks, List.cons_append, List.length_cons, List.length_append,
      List.length_nil] at hlt ⊢
    omega
  rcases List.mem_cons.mp (hpre'.subset hmem) with heq | hinner
  · simp at heq
  · exact (mem_inner hinner).2.1 rfl

end Message

section Delivery

variable {errorPage : Option Bytes}

/-- A read pass of a connection whose current request has no body adds as many requests
as messages complete and are not dropped. -/
theorem read_counts {s t : ReadRun} {run : ParserRun} (hupgrade : run.upgrade = false)
    (hparsed : run.parsed = true)
    (hversion : ∀ major minor fragment, .headerField major minor fragment ∈ run.callbacks →
      major = 1 ∧ minor ≤ 1)
    (hbody : s.conn.parseState.NoBody) (hflag : s.conn.parseState.requestComplete = false)
    (hstep : (readMachine errorPage).step s (.read (.data run)) = some t) :
    t.conn.parseState.NoBody ∧ t.conn.parseState.requestComplete = false ∧
      t.appended.length + dropped false run.callbacks =
        s.appended.length + run.callbacks.count .messageComplete ∧
      ∀ cb ∈ run.callbacks, ServerParseStatus.Plain cb := by
  obtain ⟨pass, hpass, rfl⟩ := Option.map_eq_some_iff.mp hstep
  obtain ⟨⟨parseState, ok⟩, hexecute, hdata⟩ := Option.bind_eq_some_iff.mp hpass
  obtain ⟨hcomplete, hnobody, rfl, hplain⟩ :=
    ServerParseStatus.execute_spec hbody hversion hexecute
  have hcount := count_messageComplete false run.callbacks
  rw [hflag] at hcomplete
  rw [← hcomplete] at hcount
  rcases readData_parsed hupgrade hparsed hdata with
    ⟨htrue, request, _, happended, hstate, _⟩ | ⟨hfalse, happended, hstate, _⟩
  · refine ⟨?_, ?_, ?_, hplain⟩
    · rw [show (⟨pass.conn, s.appended ++ pass.appended⟩ : ReadRun).conn.parseState = .new
        from hstate]
      exact .new
    · rw [show (⟨pass.conn, s.appended ++ pass.appended⟩ : ReadRun).conn.parseState = .new
        from hstate]
      rfl
    · rw [htrue] at hcount
      simp only [happended, List.length_append, List.length_singleton, Bool.toNat_false,
        Bool.toNat_true] at hcount ⊢
      omega
  · refine ⟨?_, ?_, ?_, hplain⟩
    · rw [show (⟨pass.conn, s.appended ++ pass.appended⟩ : ReadRun).conn.parseState = parseState
        from hstate]
      exact hnobody
    · rw [show (⟨pass.conn, s.appended ++ pass.appended⟩ : ReadRun).conn.parseState = parseState
        from hstate]
      exact hfalse
    · rw [hfalse] at hcount
      simp only [happended, List.append_nil, Bool.toNat_false] at hcount ⊢
      omega

/-- What a step hands on is what it appends. -/
theorem ReadRun.events_eq {s t : ReadRun} {responses : List HttpResponse}
    {requests : List HttpRequest}
    (hresponses : t.conn.out.pendingResponses = s.conn.out.pendingResponses ++ responses)
    (hrequests : t.appended = s.appended ++ requests) :
    s.events t = responses.map .response ++ requests.map .request := by
  rw [events, hresponses, hrequests, List.drop_left, List.drop_left]

/-- The other actions touch neither the parse status nor the record, and hand nothing on. -/
theorem step_of_run_none {s : ReadRun} {a : ReadAction} (h : a.run = none) :
    ∃ t, (readMachine errorPage).step s a = some t ∧
      t.conn.parseState = s.conn.parseState ∧ t.appended = s.appended ∧ s.events t = [] := by
  cases a with
  | takeRequest =>
    refine ⟨_, rfl, rfl, rfl, ?_⟩
    exact @ReadRun.events_eq s _ [] [] (List.append_nil _).symm (List.append_nil _).symm
  | read result =>
    cases result with
    | wouldBlock | failed | eof =>
      refine ⟨_, rfl, rfl, by simp, ?_⟩
      exact @ReadRun.events_eq s _ [] [] (List.append_nil _).symm rfl
    | data run => simp [ReadAction.run] at h

/-- The parser runs in a read pass that was given bytes. -/
theorem eq_of_run_eq_some {a : ReadAction} {run : ParserRun} (h : a.run = some run) :
    a = .read (.data run) := by
  cases a with
  | takeRequest => simp [ReadAction.run] at h
  | read result =>
    cases result with
    | wouldBlock | failed | eof => simp [ReadAction.run] at h
    | data run' =>
      obtain rfl := Option.some.inj h
      rfl

/-- The callbacks of a first action come before those of the others. -/
theorem deliveries_cons (a : ReadAction) (actions : List ReadAction) :
    deliveries (a :: actions) = (a.run.map ParserRun.callbacks).toList ++ deliveries actions := by
  unfold deliveries
  cases hrun : a.run with
  | none => simp [hrun]
  | some run => simp [hrun]

/-- What a run delivers is what its parts deliver. -/
theorem deliveries_append (before after : List ReadAction) :
    deliveries (before ++ after) = deliveries before ++ deliveries after := by
  rw [deliveries, List.filterMap_append, List.map_append, deliveries, deliveries]

/-- **Run lemma.** Over any run, the requests appended and the messages dropped make up
the messages that completed. -/
theorem run_counts {s t : ReadRun} {actions : List ReadAction} (haccepted : Accepted actions)
    (hversion : ∀ major minor fragment,
      .headerField major minor fragment ∈ (deliveries actions).flatten → major = 1 ∧ minor ≤ 1)
    (hbody : s.conn.parseState.NoBody) (hflag : s.conn.parseState.requestComplete = false)
    (hrun : (readMachine errorPage).runFrom s actions = some t) :
    t.appended.length + ((deliveries actions).map (dropped false)).sum =
      s.appended.length + (deliveries actions).flatten.count .messageComplete ∧
      ∀ cb ∈ (deliveries actions).flatten, ServerParseStatus.Plain cb := by
  induction actions generalizing s with
  | nil =>
    obtain rfl : s = t := by simpa using hrun
    simp [deliveries]
  | cons a actions ih =>
    obtain ⟨u, hu, hrest⟩ := (Machine.runFrom_cons _).mp hrun
    have haccepted' : Accepted actions := fun run hmem => haccepted run (by
      cases hrun : a.run <;> simp [hrun, hmem])
    rw [deliveries_cons] at hversion ⊢
    have hversion' : ∀ major minor fragment,
        .headerField major minor fragment ∈ (deliveries actions).flatten →
          major = 1 ∧ minor ≤ 1 := fun major minor fragment hmem =>
      hversion major minor fragment (by simp [hmem])
    cases hrunOf : a.run with
    | none =>
      obtain ⟨u', hu', hstate, happended, _⟩ := @step_of_run_none errorPage s a hrunOf
      obtain rfl := Option.some.inj (hu.symm.trans hu')
      obtain ⟨hcount, hplain⟩ := ih haccepted' hversion' (hstate ▸ hbody) (hstate ▸ hflag) hrest
      rw [happended] at hcount
      rw [Option.map_none, Option.toList_none, List.nil_append]
      exact ⟨hcount, hplain⟩
    | some run =>
      obtain ⟨hupgrade, hparsed⟩ := haccepted run (by simp [hrunOf])
      obtain rfl := eq_of_run_eq_some hrunOf
      rw [hrunOf] at hversion
      obtain ⟨hbody', hflag', hcount, hplain⟩ := read_counts hupgrade hparsed
        (fun major minor fragment hmem => hversion major minor fragment (by simp [hmem]))
        hbody hflag hu
      obtain ⟨hcount', hplain'⟩ := ih haccepted' hversion' hbody' hflag' hrest
      simp only [Option.map_some, Option.toList_some, List.singleton_append, List.map_cons,
        List.sum_cons, List.flatten_cons, List.count_append]
      refine ⟨by omega, ?_⟩
      intro cb hcb
      rcases List.mem_append.mp hcb with hcb | hcb
      · exact hplain cb hcb
      · exact hplain' cb hcb

/-- The part of the first remaining message that has been delivered is not all of it. -/
def Partial (rest : List Message) (delivered : List ParserCallback) : Prop :=
  match rest with
  | [] => delivered = []
  | m :: _ => delivered <+: m.callbacks ∧ delivered.length < m.callbacks.length

/-- Where each read holds callbacks of one message, a read that finishes a message ends
with it. -/
theorem read_ends_message {m : Message} {rest : List Message}
    {delivered cbs later : List ParserCallback} (hlt : delivered.length < m.callbacks.length)
    (hone : OneMessage cbs)
    (hall : delivered ++ cbs ++ later = m.callbacks ++ rest.flatMap Message.callbacks)
    (hle : m.callbacks.length ≤ (delivered ++ cbs).length) : delivered ++ cbs = m.callbacks := by
  have hpre : m.callbacks <+: delivered ++ cbs :=
    List.prefix_of_prefix_length_le ⟨_, rfl⟩ ⟨later, hall⟩ hle
  obtain ⟨next, hnext⟩ := hpre
  cases next with
  | nil => simpa using hnext.symm
  | cons cb next =>
    exfalso
    -- the last callback of the message and the first of the next one are in this read
    have hrest : cb :: next ++ later = rest.flatMap Message.callbacks := by
      rw [← hnext, List.append_assoc] at hall
      exact List.append_cancel_left hall
    have hcb : cb = .messageBegin := by
      cases rest with
      | nil => simp at hrest
      | cons m' rest =>
        rw [List.flatMap_cons, Message.callbacks, List.cons_append, List.cons_append,
          List.cons_append] at hrest
        exact (List.cons.inj hrest).1
    have hsplit : cbs = (m.callbacks ++ cb :: next).drop delivered.length := by
      rw [hnext, List.drop_left]
    rw [List.drop_append_of_le_length (by omega)] at hsplit
    have hlast : .messageComplete ∈ m.callbacks.drop delivered.length := by
      have hdrop : m.callbacks.drop delivered.length =
          (.messageBegin :: m.inner).drop delivered.length ++ [.messageComplete] := by
        unfold Message.callbacks
        rw [List.drop_append_of_le_length]
        simp only [Message.callbacks, List.cons_append, List.length_cons, List.length_append,
          List.length_nil] at hlt ⊢
        omega
      rw [hdrop]
      simp
    rw [hsplit] at hone
    exact (List.pairwise_append.mp hone).2.2 _ hlast cb (by simp) rfl hcb

/-- A read that completes no request keeps what it has read, and hands on at most an interim
response. -/
theorem read_waits {s : ReadRun} {run : ParserRun} {u : ServerParseStatus}
    (hread : s.conn.parseState.execute run.callbacks = some (u, true))
    (hincomplete : u.requestComplete = false) (hupgrade : run.upgrade = false)
    (hparsed : run.parsed = true) :
    ∃ t, (readMachine errorPage).step s (.read (.data run)) = some t ∧
      t.appended = s.appended ∧ t.conn.parseState = u ∧
      s.events t = if sendsContinue u then [interim] else [] := by
  have hdata : readData errorPage s.conn run u true = if sendsContinue u then
      some ⟨({ s.conn with parseState := u } : ServerConnection).appendResponse
        (httpResponseNew (httpResponseLineNew 100)), false, [.poolWrite, .poolWrite], []⟩
      else some ⟨{ s.conn with parseState := u }, false, [.poolWrite], []⟩ := by
    simp only [readData, hupgrade, hparsed, hincomplete]
    rfl
  have hstep (pass : ReadPass) (hpass : readData errorPage s.conn run u true = some pass) :
      (readMachine errorPage).step s (.read (.data run)) =
        some ⟨pass.conn, s.appended ++ pass.appended⟩ := by
    simp only [readMachine, serverLoopRead, hread, Option.bind_some, hpass, Option.map_some]
  cases hsends : sendsContinue u with
  | false =>
    rw [hsends] at hdata
    refine ⟨_, hstep _ hdata, List.append_nil _, rfl, ?_⟩
    exact @ReadRun.events_eq s _ [] [] (List.append_nil _).symm rfl
  | true =>
    rw [hsends] at hdata
    refine ⟨_, hstep _ hdata, List.append_nil _, rfl, ?_⟩
    exact @ReadRun.events_eq s _ [httpResponseNew (httpResponseLineNew 100)] [] rfl rfl

/-- A read that completes a request appends it and hands on nothing else. -/
theorem read_completes {s : ReadRun} {run : ParserRun} {u : ServerParseStatus}
    {request : HttpRequest}
    (hread : s.conn.parseState.execute run.callbacks = some (u, true))
    (hcomplete : u.requestComplete = true) (hrequest : u.currentRequest = some request)
    (hupgrade : run.upgrade = false) (hparsed : run.parsed = true) :
    ∃ t, (readMachine errorPage).step s (.read (.data run)) = some t ∧
      t.appended = s.appended ++ [request] ∧ t.conn.parseState = .new ∧
      s.events t = [.request request] := by
  let pass : ReadPass :=
    ⟨{ s.conn with
        parseState := .new
        pendingRequests := s.conn.pendingRequests ++ [request] },
      false, [.poolWorker, .poolWrite], [request]⟩
  have hpass : readData errorPage s.conn run u true = some pass := by
    simp only [readData, hupgrade, hparsed, hcomplete, hrequest]
    rfl
  refine ⟨⟨pass.conn, s.appended ++ pass.appended⟩, ?_, rfl, rfl, ?_⟩
  · simp only [readMachine, serverLoopRead, hread, Option.bind_some, hpass, Option.map_some]
  · exact @ReadRun.events_eq s _ [] [request] (List.append_nil _).symm rfl

/-- A part of a message runs and completes nothing. -/
theorem execute_partial {m : Message} {cbs : List ParserCallback} (hbodies : m.bodies = [])
    (hpre : cbs <+: m.callbacks) (hlt : cbs.length < m.callbacks.length) :
    ∃ u, ServerParseStatus.new.execute cbs = some (u, true) ∧ u.requestComplete = false := by
  obtain ⟨_, _, hmessage, _⟩ := ServerParseStatus.execute_message hbodies
  obtain ⟨later, hlater⟩ := hpre
  rw [← hlater] at hmessage
  obtain ⟨u, hu, _⟩ := ServerParseStatus.execute_initial hmessage
  refine ⟨u, hu, ?_⟩
  have hversion (major minor : ℕ) (fragment : Bytes)
      (hmem : .headerField major minor fragment ∈ cbs) : major = 1 ∧ minor ≤ 1 := by
    have hm : .headerField major minor fragment ∈ [m].flatMap Message.callbacks := by
      rw [List.flatMap_singleton, ← hlater]
      exact List.mem_append_left _ hmem
    exact Message.version_callbacks hm
  have hflag := (ServerParseStatus.execute_spec .new hversion hu).1
  have hcount := count_messageComplete false cbs
  rw [List.count_eq_zero.mpr (Message.notMem_of_initial ⟨later, hlater⟩ hlt),
    show false = ServerParseStatus.new.requestComplete from rfl, ← hflag] at hcount
  cases htrue : u.requestComplete with
  | false => rfl
  | true =>
    rw [htrue] at hcount
    simp only [ServerParseStatus.new, Bool.toNat_false, Bool.toNat_true] at hcount
    omega

/-- A read that finishes the current message hands on its request. -/
theorem read_finishes {s : ReadRun} {m : Message} {delivered : List ParserCallback}
    {run : ParserRun} (hbodies : m.bodies = [])
    (hstate : ServerParseStatus.new.execute delivered = some (s.conn.parseState, true))
    (hupgrade : run.upgrade = false) (hparsed : run.parsed = true)
    (hall : delivered ++ run.callbacks = m.callbacks) :
    ∃ t, (readMachine errorPage).step s (.read (.data run)) = some t ∧
      s.events t = m.request.toList.map .request ∧ t.conn.parseState = .new := by
  obtain ⟨u, request, hmessage, hrequest⟩ := ServerParseStatus.execute_message hbodies
  have hread : s.conn.parseState.execute run.callbacks = some (u, true) := by
    rw [← ServerParseStatus.execute_append hstate, hall]
    exact hmessage
  have hcomplete : u.requestComplete = true := by
    obtain ⟨v, _, hlast⟩ := ServerParseStatus.execute_initial
      (show ServerParseStatus.new.execute ((.messageBegin :: m.inner) ++ [.messageComplete]) =
        some (u, true) from hmessage)
    obtain ⟨rfl, _⟩ := Prod.mk.inj (Option.some.inj hlast)
    rfl
  obtain ⟨t, ht, _, hnew, hevents⟩ := read_completes hread hcomplete hrequest hupgrade hparsed
  refine ⟨t, ht, ?_, hnew⟩
  simp only [hevents, Message.request, hmessage, Option.bind_some, hrequest, Option.toList_some,
    List.map_cons, List.map_nil]

end Delivery

section Events

variable {errorPage : Option Bytes} {isOpen : Message → List ParserCallback → Bool}

/-- The messages count as open where the read loop sends an interim response for them. -/
structure SendsWhereOpen (isOpen : Message → List ParserCallback → Bool) : Prop where
  /-- A message that has not begun is not open. -/
  nil : ∀ m, isOpen m [] = false
  /-- A message that has ended is not open. -/
  closed : ∀ m p, m.callbacks.length ≤ p.length → isOpen m p = false
  /-- In between the parse status decides. -/
  inside : ∀ m p u, m.bodies = [] → p <+: m.callbacks → p.length < m.callbacks.length →
    ServerParseStatus.new.execute p = some (u, true) → isOpen m p = sendsContinue u

/-- Nothing has been delivered of messages that have not begun. -/
theorem partial_nil (rest : List Message) : Partial rest [] := by
  cases rest with
  | nil => rfl
  | cons m rest => exact ⟨List.nil_prefix, by simp [Message.callbacks]⟩

/-- Reads that follow on what was delivered. -/
theorem readEnds_append (front delivered : List ParserCallback)
    (deliveries : List (List ParserCallback)) :
    readEnds (front ++ delivered) deliveries =
      (readEnds delivered deliveries).map (front ++ ·) := by
  induction deliveries generalizing delivered with
  | nil => rfl
  | cons cbs deliveries ih =>
    rw [readEnds, readEnds, List.map_cons, List.append_assoc, ih]

/-- Where a read ends before a message begins nothing is handed on for it. -/
theorem expectedEvents_nil_cons (h : SendsWhereOpen isOpen) (messages : List Message)
    (ends : List (List ParserCallback)) :
    expectedEvents isOpen messages ([] :: ends) = expectedEvents isOpen messages ends := by
  induction messages generalizing ends with
  | nil => rfl
  | cons m rest ih =>
    rw [expectedEvents, expectedEvents, List.countP_cons_of_neg (by simp [h.nil m]), List.map_cons,
      List.drop_nil, ih]

/-- A read that ends inside a message hands on an interim response where it counts as open. -/
theorem expectedEvents_cons (h : SendsWhereOpen isOpen) {m : Message} {rest : List Message}
    {delivered : List ParserCallback} (hle : delivered.length ≤ m.callbacks.length)
    (ends : List (List ParserCallback)) :
    expectedEvents isOpen (m :: rest) (delivered :: ends) =
      (if isOpen m delivered then [interim] else []) ++ expectedEvents isOpen (m :: rest) ends := by
  rw [expectedEvents, expectedEvents, List.map_cons, List.drop_eq_nil_of_le hle,
    expectedEvents_nil_cons h]
  cases hopen : isOpen m delivered with
  | false => simp [hopen]
  | true => simp [hopen, List.replicate_succ]

/-- Reads that end behind a message hand on its request and what they hand on for the others. -/
theorem expectedEvents_behind (h : SendsWhereOpen isOpen) (m : Message) (rest : List Message)
    (ends : List (List ParserCallback)) :
    expectedEvents isOpen (m :: rest) (ends.map (m.callbacks ++ ·)) =
      m.request.toList.map .request ++ expectedEvents isOpen rest ends := by
  have hnone : (ends.map (m.callbacks ++ ·)).countP (isOpen m) = 0 := by
    rw [List.countP_eq_zero]
    intro p hp
    obtain ⟨q, _, rfl⟩ := List.mem_map.mp hp
    simp [h.closed m (m.callbacks ++ q) (by simp)]
  have hsame : List.drop m.callbacks.length ∘ (m.callbacks ++ ·) = id :=
    funext fun p => List.drop_left
  rw [expectedEvents, hnone, List.map_map, hsame, List.map_id, List.replicate_zero,
    List.nil_append]

/-- A read that holds callbacks of one message only leaves a part of a message, and hands on what
is expected of it before what is expected of the later reads. -/
theorem read_events {s : ReadRun} {run : ParserRun} {rest : List Message}
    {delivered : List ParserCallback} {later : List (List ParserCallback)}
    (h : SendsWhereOpen isOpen) (hupgrade : run.upgrade = false) (hparsed : run.parsed = true)
    (hbodies : ∀ m ∈ rest, m.bodies = []) (hone : OneMessage run.callbacks)
    (hpart : Partial rest delivered)
    (hall : delivered ++ run.callbacks ++ later.flatten = rest.flatMap Message.callbacks)
    (hstate : ServerParseStatus.new.execute delivered = some (s.conn.parseState, true)) :
    ∃ t rest' delivered', (readMachine errorPage).step s (.read (.data run)) = some t ∧
      rest' ⊆ rest ∧ Partial rest' delivered' ∧
      delivered' ++ later.flatten = rest'.flatMap Message.callbacks ∧
      ServerParseStatus.new.execute delivered' = some (t.conn.parseState, true) ∧
      expectedEvents isOpen rest (readEnds delivered (run.callbacks :: later)) =
        s.events t ++ expectedEvents isOpen rest' (readEnds delivered' later) := by
  rw [readEnds]
  cases rest with
  | nil =>
    obtain rfl : delivered = [] := hpart
    have hnone : run.callbacks = [] ∧ later.flatten = [] := by simpa using hall
    have hnew : ServerParseStatus.new = s.conn.parseState :=
      (Prod.mk.inj (Option.some.inj hstate)).1
    have hread : s.conn.parseState.execute run.callbacks = some (.new, true) := by
      rw [hnone.1, ← hnew]
      rfl
    obtain ⟨t, ht, _, hkept, hevents⟩ := @read_waits errorPage s run .new hread rfl hupgrade hparsed
    refine ⟨t, [], [], ht, List.Subset.refl _, rfl, hnone.2, by rw [hkept]; rfl, ?_⟩
    rw [hevents]
    rfl
  | cons m rest =>
    have hm : m.bodies = [] := hbodies m (by simp)
    rcases Nat.lt_or_ge (delivered ++ run.callbacks).length m.callbacks.length with hlt | hge
    · have hpre : delivered ++ run.callbacks <+: m.callbacks :=
        List.prefix_of_prefix_length_le ⟨_, hall⟩ (by simp) hlt.le
      obtain ⟨v, hv, hincomplete⟩ := execute_partial hm hpre hlt
      have hread : s.conn.parseState.execute run.callbacks = some (v, true) := by
        rw [← ServerParseStatus.execute_append hstate]
        exact hv
      obtain ⟨t, ht, _, hkept, hevents⟩ :=
        @read_waits errorPage s run v hread hincomplete hupgrade hparsed
      refine ⟨t, m :: rest, _, ht, List.Subset.refl _, ⟨hpre, hlt⟩, hall, hkept ▸ hv, ?_⟩
      rw [expectedEvents_cons h hlt.le, h.inside m _ v hm hpre hlt hv, hevents]
    · have hdone := read_ends_message hpart.2 hone hall hge
      obtain ⟨t, ht, hevents, hnew⟩ := @read_finishes errorPage s m delivered run hm hstate
        hupgrade hparsed hdone
      rw [hdone, List.flatMap_cons] at hall
      refine ⟨t, rest, [], ht, List.subset_cons_self _ _, partial_nil rest,
        List.append_cancel_left hall, by rw [hnew]; rfl, ?_⟩
      have hlater : readEnds m.callbacks later = (readEnds [] later).map (m.callbacks ++ ·) := by
        rw [← readEnds_append, List.append_nil]
      rw [hdone, expectedEvents_cons h le_rfl, h.closed m _ le_rfl, hlater,
        expectedEvents_behind h, hevents]
      rfl

/-- **Run lemma.** Reads that each hold callbacks of one message only hand on the request of every
message in turn, and before it the interim responses for the reads that leave it open. -/
theorem run_events {s : ReadRun} {actions : List ReadAction} {rest : List Message}
    {delivered : List ParserCallback} (h : SendsWhereOpen isOpen) (haccepted : Accepted actions)
    (hbodies : ∀ m ∈ rest, m.bodies = []) (hone : ∀ cbs ∈ deliveries actions, OneMessage cbs)
    (hpart : Partial rest delivered)
    (hall : delivered ++ (deliveries actions).flatten = rest.flatMap Message.callbacks)
    (hstate : ServerParseStatus.new.execute delivered = some (s.conn.parseState, true)) :
    runEvents errorPage s actions =
      some (expectedEvents isOpen rest (readEnds delivered (deliveries actions))) := by
  induction actions generalizing s rest delivered with
  | nil =>
    cases rest with
    | nil => rfl
    | cons m rest =>
      have hlength := congrArg List.length hall
      have hlt := hpart.2
      simp only [deliveries, List.filterMap_nil, List.map_nil, List.flatten_nil, List.append_nil,
        List.flatMap_cons, List.length_append] at hlength
      omega
  | cons a actions ih =>
    have haccepted' : Accepted actions := fun run hmem => haccepted run (by
      cases hrun : a.run <;> simp [hrun, hmem])
    rw [deliveries_cons] at hone hall ⊢
    have hone' : ∀ cbs ∈ deliveries actions, OneMessage cbs := fun cbs hmem =>
      hone cbs (by simp [hmem])
    cases hrun : a.run with
    | none =>
      obtain ⟨u, hu, hkept, _, hevents⟩ := @step_of_run_none errorPage s a hrun
      rw [hrun, Option.map_none, Option.toList_none, List.nil_append] at hall
      rw [runEvents, hu, Option.bind_some,
        ih haccepted' hbodies hone' hpart hall (hkept ▸ hstate), hevents]
      rfl
    | some run =>
      obtain ⟨hupgrade, hparsed⟩ := haccepted run (by simp [hrun])
      obtain rfl := eq_of_run_eq_some hrun
      rw [hrun, Option.map_some, Option.toList_some, List.singleton_append, List.flatten_cons,
        ← List.append_assoc] at hall
      obtain ⟨u, rest', delivered', hu, hsub, hpart', hall', hstate', hevents⟩ :=
        @read_events errorPage isOpen s run rest delivered (deliveries actions) h hupgrade hparsed
          hbodies (hone _ (by simp [hrun])) hpart hall hstate
      rw [runEvents, hu, Option.bind_some,
        ih haccepted' (fun m hm => hbodies m (hsub hm)) hone' hpart' hall' hstate',
        Option.map_some, Option.map_some, Option.toList_some, List.singleton_append, hevents]

/-- The request in an event. -/
def ReadEvent.asRequest : ReadEvent → Option HttpRequest
  | .response _ => none
  | .request made => some made

/-- A run that hands something on ends, and has appended the requests among it. -/
theorem runFrom_of_events {s : ReadRun} {actions : List ReadAction} {events : List ReadEvent}
    (h : runEvents errorPage s actions = some events) :
    ∃ t, (readMachine errorPage).runFrom s actions = some t ∧
      t.appended = s.appended ++ events.filterMap ReadEvent.asRequest := by
  induction actions generalizing s events with
  | nil =>
    obtain rfl := Option.some.inj h
    exact ⟨s, rfl, by simp⟩
  | cons a actions ih =>
    obtain ⟨u, hu, h⟩ := Option.bind_eq_some_iff.mp h
    obtain ⟨later, hlater, rfl⟩ := Option.map_eq_some_iff.mp h
    obtain ⟨t, ht, happended⟩ := ih hlater
    refine ⟨t, (Machine.runFrom_cons _).mpr ⟨u, hu, ht⟩, ?_⟩
    obtain ⟨requests, hrequests⟩ : ∃ requests, u.appended = s.appended ++ requests := by
      cases a with
      | takeRequest =>
        obtain rfl := Option.some.inj hu
        exact ⟨[], (List.append_nil _).symm⟩
      | read result =>
        obtain ⟨pass, _, rfl⟩ := Option.map_eq_some_iff.mp hu
        exact ⟨pass.appended, rfl⟩
    have hresponses (responses : List HttpResponse) :
        (responses.map ReadEvent.response).filterMap ReadEvent.asRequest = [] := by
      simp [List.filterMap_map, Function.comp_def, ReadEvent.asRequest]
    have hown : (requests.map ReadEvent.request).filterMap ReadEvent.asRequest = requests := by
      simp [List.filterMap_map, Function.comp_def, ReadEvent.asRequest]
    rw [happended, List.filterMap_append, ReadRun.events, List.filterMap_append, hresponses,
      hrequests, List.drop_left, hown, List.nil_append, List.append_assoc]

/-- The requests among what is handed on are those of the messages. -/
theorem filterMap_expectedEvents (messages : List Message) (ends : List (List ParserCallback)) :
    (expectedEvents isOpen messages ends).filterMap ReadEvent.asRequest =
      messages.flatMap fun m => m.request.toList := by
  induction messages generalizing ends with
  | nil => rfl
  | cons m rest ih =>
    have hinterim (n : ℕ) :
        (List.replicate n interim).filterMap ReadEvent.asRequest = [] := by
      simp [ReadEvent.asRequest, interim]
    have hown : (m.request.toList.map ReadEvent.request).filterMap ReadEvent.asRequest =
        m.request.toList := by
      simp [List.filterMap_map, Function.comp_def, ReadEvent.asRequest]
    rw [expectedEvents, List.filterMap_append, List.filterMap_append, hinterim, hown, ih,
      List.nil_append, List.flatMap_cons]

/-- A part of a message behind which the read loop sends an interim response. -/
def Message.leavesOpen (m : Message) (part : List ParserCallback) : Bool :=
  decide (part.length < m.callbacks.length) &&
    (ServerParseStatus.new.execute part).any fun (u, _) => sendsContinue u

/-- Read off the parse status the messages are open where they should be. -/
theorem sendsWhereOpen_leavesOpen : SendsWhereOpen Message.leavesOpen := by
  constructor
  · intro m
    have hnew : sendsContinue .new = false := rfl
    simp [Message.leavesOpen, ServerParseStatus.execute, hnew]
  · intro m p hle
    have hnot : ¬ p.length < m.callbacks.length := by omega
    simp [Message.leavesOpen, hnot]
  · intro m p u _ _ hlt hu
    simp [Message.leavesOpen, hlt, hu]

/-- The request of every message is appended where each read holds callbacks of one message
only. -/
theorem run_appends {actions : List ReadAction} {messages : List Message}
    (haccepted : Accepted actions) (hbodies : ∀ m ∈ messages, m.bodies = [])
    (hone : ∀ cbs ∈ deliveries actions, OneMessage cbs)
    (hdelivered : (deliveries actions).flatten = messages.flatMap Message.callbacks) :
    AppendsRequests errorPage messages actions := by
  obtain ⟨t, ht, happended⟩ := runFrom_of_events (@run_events errorPage Message.leavesOpen
    (readMachine errorPage).init actions messages [] sendsWhereOpen_leavesOpen haccepted hbodies
    hone (partial_nil messages) hdelivered rfl)
  refine ⟨t, ht, ?_⟩
  rw [happended, filterMap_expectedEvents]
  have hall : (messages.flatMap fun m => m.request.toList).map some =
      messages.map Message.request := by
    clear hdelivered happended
    induction messages with
    | nil => rfl
    | cons m rest ih =>
      obtain ⟨u, request, hmessage, hrequest⟩ :=
        ServerParseStatus.execute_message (hbodies m (by simp))
      have hsome : m.request = some request := by
        simp only [Message.request, hmessage, Option.bind_some, hrequest]
      rw [List.flatMap_cons, List.map_append, List.map_cons,
        ih fun m' hm' => hbodies m' (by simp [hm']), hsome]
      rfl
  exact hall

/-- **When no request is lost.** However the callbacks of well-formed requests are cut
into reads, and whatever else happens in between, the read passes append exactly those
requests if and only if none has a body and no read holds the end of one request and the
beginning of another. -/
theorem appendsRequests_iff {messages : List Message} {actions : List ReadAction}
    (haccepted : Accepted actions)
    (hdelivered : (deliveries actions).flatten = messages.flatMap Message.callbacks) :
    AppendsRequests errorPage messages actions ↔
      (∀ m ∈ messages, m.bodies = []) ∧ ∀ cbs ∈ deliveries actions, OneMessage cbs := by
  constructor
  · rintro ⟨s, hrun, happended⟩
    obtain ⟨hcount, hplain⟩ := run_counts haccepted
      (fun major minor fragment hmem => Message.version_callbacks (hdelivered ▸ hmem))
      .new rfl hrun
    rw [hdelivered] at hcount hplain
    have hlength : s.appended.length = messages.length := by
      simpa using congrArg List.length happended
    have hcompleted : (messages.flatMap Message.callbacks).count .messageComplete =
        messages.length := by
      rw [List.count_flatMap]
      simp [Function.comp_def, Message.count_callbacks]
    have hdropped : ((deliveries actions).map (dropped false)).sum = 0 := by
      rw [hcompleted, hlength] at hcount
      simp only [readMachine, List.length_nil] at hcount
      omega
    constructor
    · intro m hm
      rw [List.eq_nil_iff_forall_not_mem]
      intro body hbody
      have hmem : .body body ∈ m.callbacks := by
        simp [Message.callbacks, Message.inner, hbody]
      exact hplain _ (List.mem_flatMap.mpr ⟨m, hm, hmem⟩)
    · intro cbs hcbs
      have hzero := List.sum_eq_zero_iff_forall_eq_nat.mp hdropped (dropped false cbs)
        (List.mem_map_of_mem hcbs)
      exact (oneMessage_of_dropped hzero).1
  · rintro ⟨hbodies, hone⟩
    exact run_appends haccepted hbodies hone hdelivered

end Events

/-- An HTTP/1.1 request for the root of the server with the name of its host. -/
def plainGet : Message :=
  ⟨ascii "GET", ascii "/", [], 1, by decide, [⟨ascii "Host", [], ascii "a", []⟩], [], []⟩

/-- A read in which the parser accepts everything and makes these callbacks. -/
def acceptedRead (cbs : List ParserCallback) : ReadAction := .read (.data ⟨cbs, false, true, []⟩)

/-- A request whose bytes come in two reads is appended. -/
theorem appendsRequests_split : AppendsRequests none [plainGet]
    [acceptedRead (plainGet.callbacks.take 2), acceptedRead (plainGet.callbacks.drop 2)] :=
  (appendsRequests_iff (by decide) (by decide)).mpr ⟨by decide, by decide⟩

/-- Of two requests that come in one read the first is lost. -/
theorem not_appendsRequests_pipelined : ¬AppendsRequests none [plainGet, plainGet]
    [acceptedRead (plainGet.callbacks ++ plainGet.callbacks)] := by
  rintro ⟨s, hrun, happended⟩
  have hone : ((readMachine none).run
      [acceptedRead (plainGet.callbacks ++ plainGet.callbacks)]).map (·.appended.length) =
        some 1 := by decide
  have hlength := congrArg List.length happended
  rw [hrun] at hone
  simp at hone hlength
  omega

end Khttp
