import Khttp.ReadPass

/-!
# Error responses of the read loop

An error response that the read loop has appended stays among the pending responses until
it has been sent, and then the write loop closes the connection, for it says
`Connection: Close` in its head as it is made.
-/

namespace Khttp

/-- The headers of an error response before its head is made. -/
def errorHeaders (type : Bytes) : List HttpHeader :=
  [httpHeaderNew headerContentType type, httpHeaderNew headerConnection (ascii "Close")]

/-- A response of the read loop to bytes that it refuses, as long as it is pending. -/
structure HttpResponse.IsReadError (response : HttpResponse) : Prop where
  /-- Its status. -/
  code : response.resp.code = 400 ∨ response.resp.code = 501
  /-- It closes the connection. -/
  closes : saysClose response = some true
  /-- Its head has been made or is made from these headers. -/
  head : WritePass.HeadMade response ∨ ∃ type, response.headers = errorHeaders type

/-- Headers that begin like those of an error response close the connection. -/
theorem saysClose_errorHeaders {response : HttpResponse} {type : Bytes} {more : List HttpHeader}
    (h : response.headers = errorHeaders type ++ more) : saysClose response = some true := by
  have hfirst : cstr (httpHeaderNew headerContentType (some type)).name ≠
      cstr headerConnection := by
    change cstr (cstr headerContentType) ≠ cstr headerConnection
    decide
  have hget : httpHeaderListGet response.headers headerConnection =
      some (httpHeaderNew headerConnection (ascii "Close")) := by
    rw [h, httpHeaderListGet, if_neg (by decide)]
    simp only [errorHeaders, List.cons_append, List.nil_append]
    rw [List.find?_cons_of_neg (by simpa using hfirst), List.find?_cons_of_pos (by decide)]
  rw [saysClose, hget]
  decide

/-- The read loop appends an error response. -/
theorem ServerConnection.appendError_isReadError {errorPage : Option Bytes}
    {conn conn' : ServerConnection} {code : UInt16} {errmsg : Bytes}
    (hcode : code = 400 ∨ code = 501)
    (h : conn.appendError errorPage code errmsg = some conn') :
    ∃ response, conn' = conn.appendResponse response ∧ response.IsReadError := by
  unfold appendError at h
  obtain ⟨resp, hresp, h⟩ := Option.bind_eq_some_iff.mp h
  obtain ⟨headers, hadd, h⟩ := Option.bind_eq_some_iff.mp h
  obtain rfl := Option.some.inj h
  obtain ⟨type, htype⟩ := httpResponseCreateBuiltin_headers hresp
  have hheaders : headers = errorHeaders type := by
    have heq := Option.some.inj hadd
    rw [htype] at heq
    exact heq.symm
  refine ⟨{ resp with headers }, rfl, ?_, ?_, Or.inr ⟨type, hheaders⟩⟩
  · rw [httpResponseCreateBuiltin_resp hresp]
    exact hcode
  · have hall : headers = errorHeaders type ++ [] := by rw [hheaders, List.append_nil]
    exact saysClose_errorHeaders hall

/-- A read pass that refuses its bytes leaves an error response among the pending ones. -/
theorem exists_isReadError_of_refuses {errorPage : Option Bytes} {conn : ServerConnection}
    {run : ParserRun} {pass : ReadPass} (hrefuses : conn.refuses run = true)
    (h : serverLoopRead errorPage conn (.data run) = some pass) :
    ∃ response ∈ pass.conn.out.pendingResponses, response.IsReadError := by
  obtain ⟨⟨parseState, returnedZero⟩, hexecute, h⟩ := Option.bind_eq_some_iff.mp h
  have happended {conn' : ServerConnection} {code : UInt16} {errmsg : Bytes}
      (hcode : code = 400 ∨ code = 501)
      (hconn : ({ conn with parseState } : ServerConnection).appendError errorPage code errmsg =
        some conn') :
      ∃ response ∈ conn'.out.pendingResponses, response.IsReadError := by
    obtain ⟨response, rfl, herror⟩ := ServerConnection.appendError_isReadError hcode hconn
    exact ⟨response, List.mem_append_right _ (List.mem_singleton.mpr rfl), herror⟩
  simp only [readData] at h
  split at h
  · obtain ⟨conn', hconn, rfl⟩ := Option.map_eq_some_iff.mp h
    exact happended (Or.inr rfl) hconn
  · next hupgrade =>
    split at h
    · obtain ⟨conn', hconn, rfl⟩ := Option.map_eq_some_iff.mp h
      exact happended (Or.inl rfl) hconn
    · next haccepted =>
      simp_all [ServerConnection.refuses]

namespace HttpResponse.IsReadError

variable {response : HttpResponse}

/-- Sending a body makes no difference to an error response. -/
theorem with_body (h : response.IsReadError) (body : HttpBody) :
    IsReadError { response with body } := ⟨h.code, h.closes, h.head⟩

/-- Nor does it that all has been sent. -/
theorem with_sendDone (h : response.IsReadError) :
    IsReadError { response with sendStatus := .sendDone } :=
  ⟨h.code, h.closes, Or.inl (Or.inr rfl)⟩

/-- The headers of an error response stay in front of those that its head is made with. -/
theorem httpResponseHeaders_eq {date type : Bytes} (hcode : response.resp.code ≠ 100)
    (htype : response.headers = errorHeaders type) :
    ∃ more, httpResponseHeaders date response = some (errorHeaders type ++ more) := by
  have hnames : headerNames response.headers = [headerContentType, headerConnection] := by
    rw [htype]
    change [cstr (cstr headerContentType), cstr (cstr headerConnection)] = _
    decide
  rw [← htype]
  exact ⟨_, httpResponseHeaders_fresh hcode (by simp [hnames]) (by simp [hnames])⟩

/-- Making the head of an error response makes no difference. -/
theorem of_httpResponseWrite {date : Bytes} {made : HttpResponse} {out : Option Bytes}
    (h : response.IsReadError) (hwrite : httpResponseWrite date response = some (made, out)) :
    made.IsReadError := by
  unfold httpResponseWrite at hwrite
  have hcode : response.resp.code ≠ 100 := by
    rcases h.code with hcode | hcode <;> rw [hcode] <;> decide
  have hmake (hnot : ¬WritePass.HeadMade response) (output : Bytes)
      (hmade : ((httpResponseHeaders date response).bind fun headers =>
        some (({ response with headers, sendStatus := .sendBody } : HttpResponse),
          some (output ++ headers.flatMap headerLine ++ ascii "\r\n"))) = some (made, out)) :
      made.IsReadError := by
    obtain ⟨type, htype⟩ := h.head.resolve_left hnot
    obtain ⟨more, hheaders⟩ :
        ∃ more, httpResponseHeaders date response = some (errorHeaders type ++ more) :=
      httpResponseHeaders_eq hcode htype
    rw [hheaders, Option.bind_some, Option.some.injEq, Prod.mk.injEq] at hmade
    obtain ⟨rfl, _⟩ := hmade
    exact ⟨h.code, saysClose_errorHeaders rfl, Or.inl (Or.inl rfl)⟩
  cases hstatus : response.sendStatus with
  | sendBody | sendDone =>
    rw [hstatus] at hwrite
    obtain ⟨rfl, _⟩ := Prod.mk.inj (Option.some.inj hwrite)
    exact h
  | sendResponseLine | sendHeaders =>
    rw [hstatus] at hwrite
    exact hmake (by simp [WritePass.HeadMade, hstatus]) _ hwrite

end HttpResponse.IsReadError

/-- An error response of the read loop waits to be sent. -/
def WriteConn.ErrorQueued (conn : WriteConn) : Prop :=
  ∃ response ∈ conn.pendingResponses, response.IsReadError

/-- The first of the pending responses is replaced. -/
theorem WriteConn.ErrorQueued.replace {conn conn' : WriteConn} {response made : HttpResponse}
    {rest : List HttpResponse} (h : conn.ErrorQueued)
    (hresponses : conn.pendingResponses = response :: rest)
    (hmade : response.IsReadError → made.IsReadError)
    (hresponses' : conn'.pendingResponses = made :: rest) : conn'.ErrorQueued := by
  obtain ⟨found, hfound, herror⟩ := h
  rw [hresponses] at hfound
  rcases List.mem_cons.mp hfound with rfl | hrest
  · exact ⟨made, by simp [hresponses'], hmade herror⟩
  · exact ⟨found, by simp [hresponses', hrest], herror⟩

namespace WritePass

variable {s t : WritePass} {env : WriteEnv}

/-- The end of a body leaves an error response queued. -/
theorem errorQueued_endBody {result : HttpBodyWriteResult} {response made : HttpResponse}
    {rest : List HttpResponse} {conn : WriteConn} (h : conn.ErrorQueued)
    (hresponses : conn.pendingResponses = response :: rest)
    (hmade : response.IsReadError → made.IsReadError) :
    (s.endBody result made rest).conn.ErrorQueued := by
  cases result with
  | done | error => exact h.replace hresponses (fun herror => (hmade herror).with_sendDone) rfl
  | blocked | more => exact h.replace hresponses hmade rfl

/-- Draining the pending writes leaves the responses. -/
theorem drain_pendingResponses (s : WritePass) (outcome : WriteOutcome) (next : WritePc) :
    (s.drain outcome next).conn.pendingResponses = s.conn.pendingResponses := by
  unfold drain
  split
  · rfl
  · rfl
  · rfl
  · cases outcome <;> rfl

/-- A round of sending a body leaves an error response queued. -/
theorem errorQueued_writeBody {response : HttpResponse} {rest : List HttpResponse}
    (h : s.conn.ErrorQueued) (hresponses : s.conn.pendingResponses = response :: rest) :
    (s.writeBody env response rest).conn.ErrorQueued := by
  unfold writeBody
  split
  · split
    · exact errorQueued_endBody h hresponses id
    · exact errorQueued_endBody h hresponses id
    · next offered body result _ =>
      simp only
      split
      · exact h.replace hresponses (·.with_body body) rfl
      · exact errorQueued_endBody h hresponses (·.with_body body)
  · exact h

/-- A response that has been sent closes the connection where it is an error response. -/
theorem errorQueued_removeSent {response : HttpResponse} {rest : List HttpResponse}
    (h : s.conn.ErrorQueued) (hresponses : s.conn.pendingResponses = response :: rest) :
    (s.removeSent response rest).conn.ErrorQueued ∨
      (s.removeSent response rest).conn.closed = true := by
  unfold removeSent
  split
  · exact Or.inl h
  · exact Or.inr rfl
  · next hsays =>
    left
    obtain ⟨found, hfound, herror⟩ := h
    rw [hresponses] at hfound
    rcases List.mem_cons.mp hfound with rfl | hrest
    · simp [herror.closes] at hsays
    · exact ⟨found, hrest, herror⟩

/-- A step of a pass leaves an error response queued or closes the connection. -/
theorem step_errorQueued (h : s.conn.ErrorQueued) (hstep : s.step env = some t) :
    t.conn.ErrorQueued ∨ t.conn.closed = true := by
  have hdrain (outcome : WriteOutcome) (next : WritePc) :
      (s.drain outcome next).conn.ErrorQueued := by
    unfold WriteConn.ErrorQueued
    rw [drain_pendingResponses]
    exact h
  cases stepCase_of_step hstep with
  | drain => exact Or.inl (hdrain _ _)
  | takeUp _ hresponses =>
    left
    unfold takeUp
    split
    · exact h
    · next hwrite => exact h.replace hresponses (·.of_httpResponseWrite hwrite) rfl
    · next hwrite =>
      split
      · exact h
      · exact h.replace hresponses (·.of_httpResponseWrite hwrite) rfl
  | noBody _ hresponses => exact Or.inl (errorQueued_endBody h hresponses id)
  | writeBody _ hresponses => exact Or.inl (errorQueued_writeBody h hresponses)
  | removeSent _ hresponses => exact errorQueued_removeSent h hresponses
  | _ => exact Or.inl h

end WritePass

end Khttp
