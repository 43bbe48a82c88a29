import Khttp.WritePass

/-!
# Connections

`server-connection.c`: what the server keeps for one client, under the connection's
mutex. The parser itself is the vendored `http_parser`; of its state only what the
callbacks leave in the parse status is kept.
-/

namespace Khttp

/-- `server_pool`. -/
inductive ServerPool where
  | poolRead
  | poolWrite
  | poolWorker
  deriving DecidableEq, Repr

/-- `server_parse_header_state`. -/
inductive ServerParseHeaderState where
  | hstateNone
  | hstateValue
  | hstateField
  deriving DecidableEq, Repr

/-- `server_parse_status`. -/
structure ServerParseStatus where
  /-- The request that the callbacks are building. -/
  currentRequest : Option HttpRequest
  /-- Set by the last callback of a message. -/
  requestComplete : Bool
  /-- The header that the callbacks are building. -/
  parserCurrentHeader : Option HttpHeader
  /-- Which callback about headers came last. -/
  parserHeaderState : ServerParseHeaderState
  deriving DecidableEq, Repr

/-- `server_parse_status_new`. -/
def ServerParseStatus.new : ServerParseStatus := ⟨none, false, none, .hstateNone⟩

/-- `server_parser_status_reset`: the current request belongs to the caller now. -/
def ServerParseStatus.reset (_state : ServerParseStatus) : ServerParseStatus := .new

/-- `server_connection`, without its mutex. -/
structure ServerConnection where
  /-- `conn->skt->fd`. -/
  fd : ℕ
  /-- The socket's flags, the pending responses and the pending writes. -/
  out : WriteConn
  /-- `conn->pending_requests`. -/
  pendingRequests : List HttpRequest
  /-- `conn->parse_state`. -/
  parseState : ServerParseStatus
  deriving DecidableEq, Repr

namespace ServerConnection

/-- `server_connection_new`. -/
def new (fd : ℕ) : ServerConnection := ⟨fd, ⟨.new, [], false, false⟩, [], .new⟩

/-- `http_response_list_append`. -/
def appendResponse (conn : ServerConnection) (response : HttpResponse) : ServerConnection :=
  { conn with out.pendingResponses := conn.out.pendingResponses ++ [response] }

/-- An error response of the read loop: it closes the connection when it has been sent. -/
def appendError (errorPage : Option Bytes) (conn : ServerConnection) (code : UInt16)
    (errmsg : Bytes) : Option ServerConnection := do
  let resp ← httpResponseCreateBuiltin errorPage code errmsg
  let headers ← httpHeaderListAdd resp.headers
    (httpHeaderNew headerConnection (ascii "Close")) false
  some (conn.appendResponse { resp with headers })

/-- The descriptor number and whether it counts as closed. -/
def socket (conn : ServerConnection) : ℕ × Bool := (conn.fd, conn.out.closed)

@[simp] theorem appendResponse_parseState (conn : ServerConnection) (response : HttpResponse) :
    (conn.appendResponse response).parseState = conn.parseState := rfl

@[simp] theorem appendResponse_pendingRequests (conn : ServerConnection)
    (response : HttpResponse) :
    (conn.appendResponse response).pendingRequests = conn.pendingRequests := rfl

@[simp] theorem appendResponse_socket (conn : ServerConnection) (response : HttpResponse) :
    (conn.appendResponse response).socket = conn.socket := rfl

/-- An error response has the code that was asked for. -/
theorem appendError_eq {errorPage : Option Bytes} {conn conn' : ServerConnection} {code : UInt16}
    {errmsg : Bytes} (h : conn.appendError errorPage code errmsg = some conn') :
    ∃ response, conn' = conn.appendResponse response ∧
      response.resp = httpResponseLineNew code := by
  unfold appendError at h
  obtain ⟨resp, hresp, h⟩ := Option.bind_eq_some_iff.mp h
  obtain ⟨headers, _, h⟩ := Option.bind_eq_some_iff.mp h
  obtain rfl := Option.some.inj h
  have hline := httpResponseCreateBuiltin_resp hresp
  exact ⟨{ resp with headers }, rfl, hline⟩

end ServerConnection

end Khttp
