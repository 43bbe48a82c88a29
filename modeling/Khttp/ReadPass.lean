import Khttp.HttpReader

/-!
# One pass of the read loop

`server_loop_read` between `CONN_LOCK` and `CONN_UNLOCK`. Its loop reads until `read`
returns nothing or an error is met, and `if (error = true)` is an assignment: every
round that has read something is the last.
-/

namespace Khttp

/-- What `read` returns, bytes with what the parser does with them. -/
inductive SocketRead where
  /-- It fails with `EAGAIN` or `EWOULDBLOCK`. -/
  | wouldBlock
  /-- It fails with another error. -/
  | failed
  /-- The peer has closed its side. -/
  | eof
  /-- It returns bytes. -/
  | data (run : ParserRun)
  deriving DecidableEq, Repr

/-- What a read pass leaves behind when it unlocks the connection. -/
structure ReadPass where
  /-- The connection. -/
  conn : ServerConnection
  /-- `item->blocked`. -/
  blocked : Bool
  /-- The pools that `CONN_ENQUEUE` was called for, in order. -/
  enqueued : List ServerPool
  /-- The requests appended to `pending_requests`. -/
  appended : List HttpRequest
  deriving DecidableEq, Repr

/-- Whether the read loop answers a part of a request with `100 Continue`. -/
def sendsContinue (parseState : ServerParseStatus) : Bool :=
  match parseState.currentRequest.bind HttpRequest.req with
  | some line => line.version = .http11
  | none => false

/-- The round of `server_loop_read` in which `read` returned bytes. -/
def readData (errorPage : Option Bytes) (conn : ServerConnection) (run : ParserRun)
    (parseState : ServerParseStatus) (returnedZero : Bool) : Option ReadPass :=
  let conn := { conn with parseState }
  if run.upgrade then
    (conn.appendError errorPage 501 (ascii "Protocol upgrade is not supported")).map
      (⟨·, false, [.poolWrite], []⟩)
  else if !(run.parsed && returnedZero) then
    (conn.appendError errorPage 400 run.description).map (⟨·, false, [.poolWrite], []⟩)
  else if parseState.requestComplete then
    parseState.currentRequest.map fun request =>
      ⟨{ conn with
          pendingRequests := conn.pendingRequests ++ [request]
          parseState := parseState.reset },
        false, [.poolWorker, .poolWrite], [request]⟩
  else if sendsContinue parseState then
    some ⟨conn.appendResponse (httpResponseNew (httpResponseLineNew 100)), false,
      [.poolWrite, .poolWrite], []⟩
  else some ⟨conn, false, [.poolWrite], []⟩

/-- `server_loop_read` on a locked connection. -/
def serverLoopRead (errorPage : Option Bytes) (conn : ServerConnection) :
    SocketRead → Option ReadPass
  | .wouldBlock => some ⟨conn, true, [], []⟩
  | .failed => some ⟨{ conn with out.error := true }, false, [], []⟩
  | .eof => some ⟨conn, false, [], []⟩
  | .data run => (conn.parseState.execute run.callbacks).bind fun (parseState, returnedZero) =>
      readData errorPage conn run parseState returnedZero

/-- The read loop answers the bytes with an error response. -/
def ServerConnection.refuses (conn : ServerConnection) (run : ParserRun) : Bool :=
  run.upgrade || !run.parsed || (conn.parseState.execute run.callbacks).any (!·.2)

/-- What a read pass can do. -/
inductive ReadMove (conn : ServerConnection) : SocketRead → ReadPass → Prop
  /-- Nothing waits. -/
  | wouldBlock : ReadMove conn .wouldBlock ⟨conn, true, [], []⟩
  /-- The connection gets an error. -/
  | failed : ReadMove conn .failed ⟨{ conn with out.error := true }, false, [], []⟩
  /-- The peer sends no more. -/
  | eof : ReadMove conn .eof ⟨conn, false, [], []⟩
  /-- The bytes are answered with an error response. -/
  | refused {run : ParserRun} {parseState : ServerParseStatus} {returnedZero : Bool}
      {response : HttpResponse}
      (hexecute : conn.parseState.execute run.callbacks = some (parseState, returnedZero))
      (hrefused : run.upgrade = true ∨ (run.parsed && returnedZero) = false)
      (hcode : response.resp.code = 501 ∨ response.resp.code = 400) :
      ReadMove conn (.data run)
        ⟨({ conn with parseState } : ServerConnection).appendResponse response, false,
          [.poolWrite], []⟩
  /-- The bytes end a request. -/
  | complete {run : ParserRun} {parseState : ServerParseStatus} {request : HttpRequest}
      (hexecute : conn.parseState.execute run.callbacks = some (parseState, true))
      (hupgrade : run.upgrade = false) (hparsed : run.parsed = true) :
      ReadMove conn (.data run)
        ⟨{ conn with pendingRequests := conn.pendingRequests ++ [request], parseState := .new },
          false, [.poolWorker, .poolWrite], [request]⟩
  /-- The bytes are answered with an interim response. -/
  | interim {run : ParserRun} {parseState : ServerParseStatus}
      (hexecute : conn.parseState.execute run.callbacks = some (parseState, true))
      (hupgrade : run.upgrade = false) (hparsed : run.parsed = true) :
      ReadMove conn (.data run)
        ⟨({ conn with parseState } : ServerConnection).appendResponse
          (httpResponseNew (httpResponseLineNew 100)), false, [.poolWrite, .poolWrite], []⟩
  /-- The bytes are kept. -/
  | kept {run : ParserRun} {parseState : ServerParseStatus}
      (hexecute : conn.parseState.execute run.callbacks = some (parseState, true))
      (hupgrade : run.upgrade = false) (hparsed : run.parsed = true) :
      ReadMove conn (.data run) ⟨{ conn with parseState }, false, [.poolWrite], []⟩

/-- Every read pass is one of these. -/
theorem readMove_of_serverLoopRead {errorPage : Option Bytes} {conn : ServerConnection}
    {outcome : SocketRead} {pass : ReadPass}
    (h : serverLoopRead errorPage conn outcome = some pass) : ReadMove conn outcome pass := by
  cases outcome with
  | wouldBlock =>
    obtain rfl := Option.some.inj h
    exact .wouldBlock
  | failed =>
    obtain rfl := Option.some.inj h
    exact .failed
  | eof =>
    obtain rfl := Option.some.inj h
    exact .eof
  | data run =>
    obtain ⟨⟨parseState, returnedZero⟩, hexecute, h⟩ := Option.bind_eq_some_iff.mp h
    simp only [readData] at h
    split at h
    · next hupgrade =>
      obtain ⟨conn', hconn, rfl⟩ := Option.map_eq_some_iff.mp h
      obtain ⟨response, rfl, hresp⟩ := ServerConnection.appendError_eq hconn
      exact .refused hexecute (Or.inl hupgrade) (Or.inl (by rw [hresp]; rfl))
    · next hupgrade =>
      have hupgrade : run.upgrade = false := by simpa using hupgrade
      split at h
      · next hparsed =>
        obtain ⟨conn', hconn, rfl⟩ := Option.map_eq_some_iff.mp h
        obtain ⟨response, rfl, hresp⟩ := ServerConnection.appendError_eq hconn
        exact .refused hexecute (Or.inr ((Bool.not_eq_true' _).mp hparsed))
          (Or.inr (by rw [hresp]; rfl))
      · next haccepted =>
        obtain ⟨hparsed, rfl⟩ : run.parsed = true ∧ returnedZero = true := by
          simpa using haccepted
        split at h
        · obtain ⟨request, _, rfl⟩ := Option.map_eq_some_iff.mp h
          exact .complete hexecute hupgrade hparsed
        · split at h
          · obtain rfl := Option.some.inj h
            exact .interim hexecute hupgrade hparsed
          · obtain rfl := Option.some.inj h
            exact .kept hexecute hupgrade hparsed

/-- A read pass closes nothing. -/
theorem ReadMove.socket_eq {conn : ServerConnection} {outcome : SocketRead} {pass : ReadPass}
    (h : ReadMove conn outcome pass) : pass.conn.socket = conn.socket := by
  cases h <;> rfl

/-- A read pass does not take an error back. -/
theorem ReadMove.error_eq {conn : ServerConnection} {outcome : SocketRead} {pass : ReadPass}
    (h : ReadMove conn outcome pass) (herror : conn.out.error = true) :
    pass.conn.out.error = true := by
  cases h with
  | failed => rfl
  | _ => exact herror

/-- The responses that are pending stay so in a read pass. -/
theorem ReadMove.pendingResponses_kept {conn : ServerConnection} {outcome : SocketRead}
    {pass : ReadPass} (h : ReadMove conn outcome pass) :
    conn.out.pendingResponses <+: pass.conn.out.pendingResponses := by
  cases h with
  | refused | interim => exact List.prefix_append _ _
  | _ => exact List.prefix_rfl

/-- A round that parses its bytes without an upgrade has one of three outcomes: it
appends the request that is complete, or sends an interim response, or waits. -/
theorem readData_parsed {errorPage : Option Bytes} {conn : ServerConnection} {run : ParserRun}
    {parseState : ServerParseStatus} {pass : ReadPass} (hupgrade : run.upgrade = false)
    (hparsed : run.parsed = true)
    (h : readData errorPage conn run parseState true = some pass) :
    (parseState.requestComplete = true ∧ ∃ request, parseState.currentRequest = some request ∧
      pass.appended = [request] ∧ pass.conn.parseState = .new ∧
      pass.conn.pendingRequests = conn.pendingRequests ++ [request]) ∨
    (parseState.requestComplete = false ∧ pass.appended = [] ∧
      pass.conn.parseState = parseState ∧ pass.conn.pendingRequests = conn.pendingRequests) := by
  unfold readData at h
  simp only [hupgrade, hparsed, Bool.and_self, Bool.not_true, Bool.false_eq_true, if_false] at h
  cases hcomplete : parseState.requestComplete with
  | true =>
    simp only [hcomplete, if_true, Option.map_eq_some_iff] at h
    obtain ⟨request, hrequest, rfl⟩ := h
    exact Or.inl ⟨rfl, request, hrequest, rfl, rfl, rfl⟩
  | false =>
    simp only [hcomplete, Bool.false_eq_true, if_false] at h
    right
    split at h
    · obtain rfl := Option.some.inj h
      exact ⟨rfl, rfl, rfl, rfl⟩
    · obtain rfl := Option.some.inj h
      exact ⟨rfl, rfl, rfl, rfl⟩

end Khttp
