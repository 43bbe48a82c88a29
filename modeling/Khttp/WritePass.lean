import Khttp.Http
import Khttp.Lib.Machine

/-!
# One pass of the write loop

`server_loop_write` between `CONN_LOCK` and `CONN_UNLOCK`, one system call or one
test at a time. The variable `response` of the source is always null or the first
element of `pending_responses`, so a position in the code and the connection
determine the state.
-/

namespace Khttp

open Lib

/-- What a write pass uses of `server_connection` and its `socket_info`. -/
structure WriteConn where
  /-- `conn->pending_writes`. -/
  pendingWrites : DataBufferList
  /-- `conn->pending_responses`. -/
  pendingResponses : List HttpResponse
  /-- `conn->skt->error`. -/
  error : Bool
  /-- `conn->skt->closed`. -/
  closed : Bool
  deriving DecidableEq, Repr

/-- What the system does at one step of a pass. -/
structure WriteEnv where
  /-- The outcome of a `write` made in this step. -/
  write : WriteOutcome
  /-- The outcome of an `fread` made in this step. -/
  read : ReadOutcome
  /-- Whether `errno` is `EAGAIN` or `EWOULDBLOCK` where no call of this step sets it. -/
  errnoAgain : Bool
  /-- The text `strftime` makes of the current time. -/
  date : Bytes
  deriving DecidableEq, Repr

/-- A call of a pass on the socket, or a file read that delivered nothing. -/
inductive SysCall where
  /-- `write` was offered these bytes. -/
  | write (offered : Bytes) (outcome : WriteOutcome)
  /-- `fread` failed or delivered no bytes. -/
  | readFailed
  /-- `close`. -/
  | close
  deriving DecidableEq, Repr

/-- The positions of a pass. -/
inductive WritePc where
  /-- In the `data_buffer_list_writeto_fd` before the loop. -/
  | drainFirst
  /-- At the test for pending writes behind it. -/
  | check
  /-- At the head of `while (response != NULL)`. -/
  | loop
  /-- In the `data_buffer_list_writeto_fd` of the loop. -/
  | drainHead
  /-- At the test for an error or pending writes behind it. -/
  | afterHead
  /-- In `http_body_writeto_fd`. -/
  | body
  /-- At the test for `SEND_DONE`, which holds. -/
  | sent
  /-- At `FINSIHED`. -/
  | finished
  /-- Stopped by a failed assertion or a wild pointer. -/
  | aborted
  deriving DecidableEq, Repr

/-- A pass in progress. -/
structure WritePass where
  /-- The connection. -/
  conn : WriteConn
  /-- `item->blocked`. -/
  blocked : Bool
  /-- The position. -/
  pc : WritePc
  /-- The calls made so far. -/
  calls : List SysCall
  deriving DecidableEq, Repr

/-- `strcasecmp(connection_header->content, "close") == 0` for the first header named
`Connection`. It has no result where that header's content is null. -/
def saysClose (response : HttpResponse) : Option Bool :=
  match httpHeaderListGet response.headers headerConnection with
  | none => some false
  | some header => header.content.map (strcaseeq · (ascii "close"))

namespace WritePass

/-- The state of a pass that has locked the connection. -/
def start (conn : WriteConn) : WritePass := ⟨conn, false, .drainFirst, []⟩

/-- One round of `data_buffer_list_writeto_fd` and the handling of its result. -/
def drain (s : WritePass) (outcome : WriteOutcome) (next : WritePc) : WritePass :=
  match s.conn.pendingWrites.drainRound outcome with
  | .fault => { s with pc := .aborted }
  | .drained => { s with pc := next }
  | .unlinked l => { s with conn.pendingWrites := l }
  | .wrote offered l =>
    let calls := s.calls ++ [SysCall.write offered outcome]
    match outcome with
    | .accept _ => { s with calls, conn.pendingWrites := l }
    | .wouldBlock => { s with calls, conn.pendingWrites := l, blocked := true, pc := next }
    | .hardError => { s with calls, conn.pendingWrites := l, conn.error := true, pc := next }

/-- The loop takes up the first response: its head is made and appended. -/
def takeUp (s : WritePass) (date : Bytes) (response : HttpResponse) (rest : List HttpResponse) :
    WritePass :=
  match httpResponseWrite date response with
  | none => { s with pc := .aborted }
  | some (response, none) =>
    { s with conn.pendingResponses := response :: rest, pc := .drainHead }
  | some (response, some respStr) =>
    match s.conn.pendingWrites.append respStr (strlen respStr) with
    | none => { s with pc := .aborted }
    | some l =>
      { s with
        conn.pendingWrites := l
        conn.pendingResponses := response :: rest
        pc := .drainHead }

/-- The end of `http_body_writeto_fd` for the first response. -/
def endBody (s : WritePass) (result : HttpBodyWriteResult) (response : HttpResponse)
    (rest : List HttpResponse) : WritePass :=
  match result with
  | .done =>
    { s with
      conn.pendingResponses := { response with sendStatus := .sendDone } :: rest
      pc := .sent }
  | .error =>
    { s with
      conn.pendingResponses := { response with sendStatus := .sendDone } :: rest
      conn.error := true
      pc := .sent }
  | .blocked | .more => { s with conn.pendingResponses := response :: rest, pc := .finished }

/-- One round of `http_body_writeto_fd` for the first response. -/
def writeBody (s : WritePass) (env : WriteEnv) (response : HttpResponse)
    (rest : List HttpResponse) : WritePass :=
  if response.body.HasData then
    match response.body.round env.write env.read env.errnoAgain with
    | .returned => s.endBody .done response rest
    | .noRead result =>
      endBody { s with calls := s.calls ++ [.readFailed] } result response rest
    | .wrote offered body result =>
      let s : WritePass := { s with calls := s.calls ++ [.write offered env.write] }
      if result = .more then { s with conn.pendingResponses := { response with body } :: rest }
      else s.endBody result { response with body } rest
  else { s with pc := .aborted }

/-- A response that has been sent is removed, and a connection that it closes is closed. -/
def removeSent (s : WritePass) (response : HttpResponse) (rest : List HttpResponse) : WritePass :=
  match saysClose response with
  | none => { s with pc := .aborted }
  | some true =>
    { s with
      calls := s.calls ++ [.close]
      conn.closed := true
      conn.pendingResponses := rest
      pc := .finished }
  | some false => { s with conn.pendingResponses := rest, pc := .loop }

/-- One step of a pass. -/
def step (s : WritePass) (env : WriteEnv) : Option WritePass :=
  match s.pc, s.conn.pendingResponses with
  | .drainFirst, _ => some (s.drain env.write .check)
  | .check, _ =>
    some { s with pc := if s.conn.pendingWrites.first = none then .loop else .finished }
  | .loop, [] => some { s with pc := .finished }
  | .loop, response :: rest => some (s.takeUp env.date response rest)
  | .drainHead, _ => some (s.drain env.write .afterHead)
  | .afterHead, response :: rest =>
    if s.conn.error = false ∧ s.conn.pendingWrites.first = none then
      match response.sendStatus with
      | .sendBody =>
        if response.body.type = .bodyNone then some (s.endBody .done response rest)
        else some { s with pc := .body }
      | .sendDone => some { s with pc := .sent }
      | .sendResponseLine | .sendHeaders => some { s with pc := .loop }
    else some { s with pc := .loop }
  | .body, response :: rest => some (s.writeBody env response rest)
  | .sent, response :: rest => some (s.removeSent response rest)
  | .afterHead, [] | .body, [] | .sent, [] => some { s with pc := .aborted }
  | .finished, _ | .aborted, _ => none

/-- What a step of a pass can be, with what holds where it is. -/
inductive StepCase (s : WritePass) (env : WriteEnv) : WritePass → Prop
  /-- A round of a drain. -/
  | drain {next : WritePc}
    (hpc : (s.pc = .drainFirst ∧ next = .check) ∨ (s.pc = .drainHead ∧ next = .afterHead)) :
    StepCase s env (s.drain env.write next)
  /-- The pass looks whether the first drain has left anything. -/
  | check (hpc : s.pc = .check) :
    StepCase s env
      { s with pc := if s.conn.pendingWrites.first = none then .loop else .finished }
  /-- There is no response. -/
  | noResponse (hpc : s.pc = .loop) (hresponses : s.conn.pendingResponses = []) :
    StepCase s env { s with pc := .finished }
  /-- The first response is taken up. -/
  | takeUp {response : HttpResponse} {rest : List HttpResponse} (hpc : s.pc = .loop)
    (hresponses : s.conn.pendingResponses = response :: rest) :
    StepCase s env (s.takeUp env.date response rest)
  /-- The head has gone, and there is no body. -/
  | noBody {response : HttpResponse} {rest : List HttpResponse} (hpc : s.pc = .afterHead)
    (hresponses : s.conn.pendingResponses = response :: rest)
    (hgone : s.conn.error = false ∧ s.conn.pendingWrites.first = none) :
    StepCase s env (s.endBody .done response rest)
  /-- The head has gone, and the response with it unless a body follows. -/
  | headGone {pc : WritePc} (hpc : s.pc = .afterHead) (hnext : pc = .body ∨ pc = .sent)
    (hgone : s.conn.error = false ∧ s.conn.pendingWrites.first = none) :
    StepCase s env { s with pc }
  /-- The head is taken up again. -/
  | again {response : HttpResponse} {rest : List HttpResponse} (hpc : s.pc = .afterHead)
    (hresponses : s.conn.pendingResponses = response :: rest) :
    StepCase s env { s with pc := .loop }
  /-- A round of the body. -/
  | writeBody {response : HttpResponse} {rest : List HttpResponse} (hpc : s.pc = .body)
    (hresponses : s.conn.pendingResponses = response :: rest) :
    StepCase s env (s.writeBody env response rest)
  /-- The response is removed. -/
  | removeSent {response : HttpResponse} {rest : List HttpResponse} (hpc : s.pc = .sent)
    (hresponses : s.conn.pendingResponses = response :: rest) :
    StepCase s env (s.removeSent response rest)
  /-- The response that the pass is at is gone. -/
  | abort (hpc : s.pc = .afterHead ∨ s.pc = .body ∨ s.pc = .sent)
    (hresponses : s.conn.pendingResponses = []) : StepCase s env { s with pc := .aborted }

/-- **Inversion lemma.** Every step is one of these. -/
theorem stepCase_of_step {s t : WritePass} {env : WriteEnv} (h : s.step env = some t) :
    s.StepCase env t := by
  unfold step at h
  split at h
  · next hpc =>
    obtain rfl := Option.some.inj h
    exact .drain (Or.inl ⟨hpc, rfl⟩)
  · next hpc =>
    obtain rfl := Option.some.inj h
    exact .check hpc
  · next hpc hresponses =>
    obtain rfl := Option.some.inj h
    exact .noResponse hpc hresponses
  · next hpc hresponses =>
    obtain rfl := Option.some.inj h
    exact .takeUp hpc hresponses
  · next hpc =>
    obtain rfl := Option.some.inj h
    exact .drain (Or.inr ⟨hpc, rfl⟩)
  · next hpc hresponses =>
    split at h
    · next hgone =>
      split at h
      · split at h
        · obtain rfl := Option.some.inj h
          exact .noBody hpc hresponses hgone
        · obtain rfl := Option.some.inj h
          exact .headGone hpc (Or.inl rfl) hgone
      · obtain rfl := Option.some.inj h
        exact .headGone hpc (Or.inr rfl) hgone
      · obtain rfl := Option.some.inj h
        exact .again hpc hresponses
      · obtain rfl := Option.some.inj h
        exact .again hpc hresponses
    · obtain rfl := Option.some.inj h
      exact .again hpc hresponses
  · next hpc hresponses =>
    obtain rfl := Option.some.inj h
    exact .writeBody hpc hresponses
  · next hpc hresponses =>
    obtain rfl := Option.some.inj h
    exact .removeSent hpc hresponses
  · next hpc hresponses =>
    obtain rfl := Option.some.inj h
    exact .abort (Or.inl hpc) hresponses
  · next hpc hresponses =>
    obtain rfl := Option.some.inj h
    exact .abort (Or.inr (Or.inl hpc)) hresponses
  · next hpc hresponses =>
    obtain rfl := Option.some.inj h
    exact .abort (Or.inr (Or.inr hpc)) hresponses
  · simp at h
  · simp at h

/-- The states between a head being made and its response being removed. -/
def HeadMade (response : HttpResponse) : Prop :=
  response.sendStatus = .sendBody ∨ response.sendStatus = .sendDone

/-- What a drain of a list with `k` buffers and `bs` waiting can do. -/
theorem drain_cases {s : WritePass} {k : ℕ} {bs : Bytes} (h : s.conn.pendingWrites.Holds k bs)
    (outcome : WriteOutcome) (next : WritePc) :
    (s.conn.pendingWrites.first = none ∧ bs = [] ∧
      s.drain outcome next = { s with pc := next }) ∨
    (∃ l k', s.drain outcome next = { s with conn.pendingWrites := l } ∧ l.Holds k' bs ∧
      k = k' + 1) ∨
    (∃ offered l, s.conn.pendingWrites.drainRound outcome = .wrote offered l ∧
      offered ≠ [] ∧ offered <+: bs ∧ s.conn.pendingWrites.first ≠ none ∧
      ((∃ n, outcome = .accept n ∧
        s.drain outcome next =
          { s with calls := s.calls ++ [.write offered outcome], conn.pendingWrites := l } ∧
        l.Holds k (bs.drop (min n offered.length))) ∨
      (outcome = .wouldBlock ∧
        s.drain outcome next =
          { s with calls := s.calls ++ [.write offered outcome], blocked := true, pc := next }) ∨
      (outcome = .hardError ∧
        s.drain outcome next =
          { s with calls := s.calls ++ [.write offered outcome], conn.error := true,
                   pc := next }))) := by
  unfold drain
  rcases h.drainRound_cases outcome with ⟨hround, hfirst, hbs⟩ | ⟨l, k', hround, hl, hk⟩ |
    ⟨offered, l, hround, hne, hpre, hfirst, haccept, hrefuse⟩
  · rw [hround]
    exact Or.inl ⟨hfirst, hbs, rfl⟩
  · rw [hround]
    exact Or.inr (Or.inl ⟨l, k', rfl, hl, hk⟩)
  · rw [hround]
    refine Or.inr (Or.inr ⟨offered, l, rfl, hne, hpre, hfirst, ?_⟩)
    cases outcome with
    | accept n => exact Or.inl ⟨n, rfl, rfl, haccept n rfl⟩
    | wouldBlock =>
      obtain rfl := hrefuse (by simp)
      exact Or.inr (Or.inl ⟨rfl, rfl⟩)
    | hardError =>
      obtain rfl := hrefuse (by simp)
      exact Or.inr (Or.inr ⟨rfl, rfl⟩)

/-- What taking up a response can do, on a connection on which no bytes wait unless the
head of that response is made. -/
theorem takeUp_cases {s : WritePass} (date : Bytes) {response : HttpResponse}
    {rest : List HttpResponse} (h : s.conn.pendingWrites.first = none ∨ HeadMade response)
    (hresponses : s.conn.pendingResponses = response :: rest) :
    (httpResponseWrite date response = none ∧
      s.takeUp date response rest = { s with pc := .aborted }) ∨
    (HeadMade response ∧ s.takeUp date response rest = { s with pc := .drainHead }) ∨
    (¬HeadMade response ∧ s.conn.pendingWrites.first = none ∧
      ∃ head headers l k,
        httpResponseWrite date response =
          some ({ response with headers, sendStatus := .sendBody }, some head) ∧
        l.Holds k head ∧
        s.takeUp date response rest =
          { s with
            conn.pendingWrites := l
            conn.pendingResponses := { response with headers, sendStatus := .sendBody } :: rest
            pc := .drainHead }) := by
  unfold takeUp
  cases hwrite : httpResponseWrite date response with
  | none => exact Or.inl ⟨rfl, rfl⟩
  | some result =>
    obtain ⟨response', out⟩ := result
    rcases httpResponseWrite_cases hwrite with ⟨rfl, rfl, hmade⟩ |
      ⟨head, headers, rfl, hzero, hne, rfl, hstatus⟩
    · refine Or.inr (Or.inl ⟨hmade, ?_⟩)
      simp only [← hresponses]
    · have hmade : ¬HeadMade response := by
        rintro (hbody | hdone) <;> simp_all
      have hfirst := h.resolve_right hmade
      obtain ⟨l, k, happend, hl⟩ :=
        DataBufferList.append_of_first_none head (strlen head) hfirst
      rw [take_strlen, cstr_of_zero_notMem hzero] at hl
      refine Or.inr (Or.inr ⟨hmade, hfirst, head, headers, l, k, rfl, hl, ?_⟩)
      simp only [happend]

/-- Taking up a response whose head is made changes nothing but the position. -/
theorem takeUp_of_headMade {s : WritePass} {date : Bytes} {response : HttpResponse}
    {rest : List HttpResponse} (hmade : HeadMade response)
    (hresponses : s.conn.pendingResponses = response :: rest) :
    s.takeUp date response rest = { s with pc := .drainHead } := by
  rcases takeUp_cases date (Or.inr hmade) hresponses with ⟨hcrash, _⟩ | ⟨_, htake⟩ | ⟨hnot, _⟩
  · rcases hmade with hbody | hdone <;> simp_all [httpResponseWrite]
  · exact htake
  · exact absurd hmade hnot

/-- What a round of sending a body can do. -/
theorem writeBody_cases (s : WritePass) (env : WriteEnv) {response : HttpResponse}
    (rest : List HttpResponse) (hdata : response.body.HasData) :
    (response.body.remaining = [] ∧
      s.writeBody env response rest = s.endBody .done response rest) ∨
    (∃ offered, offered ≠ [] ∧ offered <+: response.body.remaining ∧
      ((∃ n, env.write = .accept n ∧
        (s.writeBody env response rest =
            { s with
              calls := s.calls ++ [.write offered env.write]
              conn.pendingResponses := { response with
                body.rOffset := response.body.rOffset + min n offered.length } :: rest } ∨
          env.read ≠ .full ∧ s.writeBody env response rest =
            endBody { s with calls := s.calls ++ [.write offered env.write] } .done
              { response with body.rOffset := response.body.rOffset + min n offered.length }
              rest)) ∨
      (env.write = .wouldBlock ∧ s.writeBody env response rest =
        endBody { s with calls := s.calls ++ [.write offered env.write] } .blocked
          response rest) ∨
      (env.write = .hardError ∧ s.writeBody env response rest =
        endBody { s with calls := s.calls ++ [.write offered env.write] } .error
          response rest))) ∨
    (env.read ≠ .full ∧ s.writeBody env response rest =
      endBody { s with calls := s.calls ++ [.readFailed] } (HttpBody.failure env.errnoAgain)
        response rest) := by
  unfold writeBody
  rw [if_pos hdata]
  by_cases hremaining : response.body.remaining = []
  · rw [HttpBody.round_of_remaining_nil hremaining]
    exact Or.inl ⟨hremaining, rfl⟩
  · rcases HttpBody.round_cases hremaining env.write env.read env.errnoAgain with
      ⟨offered, last, hround, hne, hpre, hlast, hfull⟩ | ⟨hround, hread⟩
    · rw [hround]
      refine Or.inr (Or.inl ⟨offered, hne, hpre, ?_⟩)
      cases hwrite : env.write with
      | accept n =>
        refine Or.inl ⟨n, rfl, ?_⟩
        rcases hlast with rfl | rfl
        · exact Or.inl rfl
        · obtain ⟨k, hk⟩ := hfull rfl
          exact Or.inr ⟨by simp [hk], rfl⟩
      | wouldBlock => exact Or.inr (Or.inl ⟨rfl, rfl⟩)
      | hardError => exact Or.inr (Or.inr ⟨rfl, rfl⟩)
    · rw [hround]
      exact Or.inr (Or.inr ⟨hread, rfl⟩)

/-- The call that a step of a pass adds, if any, with what it does to the socket. -/
inductive Adds (s : WritePass) (outcome : WriteOutcome) (t : WritePass) : Prop
  /-- It adds none. -/
  | nothing (hcalls : t.calls = s.calls) (hclosed : t.conn.closed = s.conn.closed)
  /-- A file delivered nothing. -/
  | readFailed (hcalls : t.calls = s.calls ++ [.readFailed])
      (hclosed : t.conn.closed = s.conn.closed)
  /-- Bytes were offered. -/
  | write (offered : Bytes) (hcalls : t.calls = s.calls ++ [.write offered outcome])
      (hclosed : t.conn.closed = s.conn.closed)
  /-- The socket was closed. -/
  | close (hcalls : t.calls = s.calls ++ [.close]) (hclosed : t.conn.closed = true)

/-- A round of `data_buffer_list_writeto_fd` adds at most one `write`. -/
theorem adds_drain (s : WritePass) (outcome : WriteOutcome) (next : WritePc) :
    s.Adds outcome (s.drain outcome next) := by
  unfold drain
  split
  · exact .nothing rfl rfl
  · exact .nothing rfl rfl
  · exact .nothing rfl rfl
  · next offered l _ => cases outcome <;> exact .write offered rfl rfl

/-- The end of a body adds nothing to what the last round has added. -/
theorem Adds.endBody {s t : WritePass} {outcome : WriteOutcome} (h : s.Adds outcome t)
    (result : HttpBodyWriteResult) (response : HttpResponse) (rest : List HttpResponse) :
    s.Adds outcome (t.endBody result response rest) := by
  have hcalls : (t.endBody result response rest).calls = t.calls := by cases result <;> rfl
  have hclosed : (t.endBody result response rest).conn.closed = t.conn.closed := by
    cases result <;> rfl
  cases h with
  | nothing hc ho => exact .nothing (hcalls.trans hc) (hclosed.trans ho)
  | readFailed hc ho => exact .readFailed (hcalls.trans hc) (hclosed.trans ho)
  | write offered hc ho => exact .write offered (hcalls.trans hc) (hclosed.trans ho)
  | close hc ho => exact .close (hcalls.trans hc) (hclosed.trans ho)

/-- A round of a body adds at most one call, and no `close`. -/
theorem adds_writeBody (s : WritePass) (env : WriteEnv) (response : HttpResponse)
    (rest : List HttpResponse) : s.Adds env.write (s.writeBody env response rest) := by
  unfold writeBody
  split
  · split
    · apply Adds.endBody
      exact .nothing rfl rfl
    · apply Adds.endBody
      exact .readFailed rfl rfl
    · next offered body result _ =>
      simp only
      split
      · exact .write offered rfl rfl
      · apply Adds.endBody
        exact .write offered rfl rfl
  · exact .nothing rfl rfl

/-- Every step adds at most one call. -/
theorem step_adds {s t : WritePass} {env : WriteEnv} (h : s.step env = some t) :
    s.Adds env.write t := by
  cases stepCase_of_step h with
  | drain => exact adds_drain s _ _
  | takeUp =>
    unfold takeUp
    repeat' split
    all_goals exact .nothing rfl rfl
  | writeBody => exact adds_writeBody s env _ _
  | removeSent =>
    unfold removeSent
    split
    · exact .nothing rfl rfl
    · exact .close rfl rfl
    · exact .nothing rfl rfl
  | _ => exact .nothing rfl rfl

/-- The calls of a pass are only added to. -/
theorem step_calls {s t : WritePass} {env : WriteEnv} (h : s.step env = some t) :
    s.calls <+: t.calls := by
  cases step_adds h with
  | nothing hcalls => simp [hcalls]
  | readFailed hcalls => simp [hcalls]
  | write offered hcalls => simp [hcalls]
  | close hcalls => simp [hcalls]

/-- A round of a drain that blocks the item met bytes that the socket did not take. -/
theorem drain_blocked {s : WritePass} {outcome : WriteOutcome} {next : WritePc}
    (h : (s.drain outcome next).blocked = true) :
    s.blocked = true ∨ (outcome = .wouldBlock ∧ s.conn.pendingWrites.first ≠ none) := by
  unfold drain at h
  split at h
  · exact Or.inl h
  · exact Or.inl h
  · exact Or.inl h
  · next offered l hround =>
    have hfirst : s.conn.pendingWrites.first ≠ none := by
      intro hnone
      simp [DataBufferList.drainRound, hnone] at hround
    cases outcome with
    | wouldBlock => exact Or.inr ⟨rfl, hfirst⟩
    | accept | hardError => exact Or.inl h

/-- The end of a body does not block the item. -/
theorem endBody_blocked (s : WritePass) (result : HttpBodyWriteResult) (response : HttpResponse)
    (rest : List HttpResponse) : (s.endBody result response rest).blocked = s.blocked := by
  cases result <;> rfl

/-- A step that blocks the item met bytes that the socket did not take. -/
theorem step_blocked {s t : WritePass} {env : WriteEnv} (h : s.step env = some t)
    (hblocked : t.blocked = true) :
    s.blocked = true ∨ (env.write = .wouldBlock ∧ (s.pc = .drainFirst ∨ s.pc = .drainHead) ∧
      s.conn.pendingWrites.first ≠ none) := by
  cases stepCase_of_step h with
  | drain hpc =>
    rcases drain_blocked hblocked with hs | ⟨hwrite, hfirst⟩
    · exact Or.inl hs
    · exact Or.inr ⟨hwrite, hpc.imp And.left And.left, hfirst⟩
  | takeUp =>
    unfold takeUp at hblocked
    repeat' split at hblocked
    all_goals exact Or.inl hblocked
  | writeBody =>
    left
    unfold writeBody at hblocked
    simp only [apply_ite blocked] at hblocked
    repeat' split at hblocked
    all_goals simpa [endBody_blocked] using hblocked
  | removeSent =>
    unfold removeSent at hblocked
    repeat' split at hblocked
    all_goals exact Or.inl hblocked
  | _ => exact Or.inl hblocked

/-- A round of a drain does not take an error back. -/
theorem error_drain {s : WritePass} (h : s.conn.error = true) (outcome : WriteOutcome)
    (next : WritePc) : (s.drain outcome next).conn.error = true := by
  unfold drain
  split
  · exact h
  · exact h
  · exact h
  · cases outcome with
    | accept | wouldBlock => exact h
    | hardError => rfl

/-- The end of a body does not take an error back. -/
theorem error_endBody {s : WritePass} (h : s.conn.error = true) (result : HttpBodyWriteResult)
    (response : HttpResponse) (rest : List HttpResponse) :
    (s.endBody result response rest).conn.error = true := by
  cases result with
  | done | blocked | more => exact h
  | error => rfl

/-- A round of a body does not take an error back. -/
theorem error_writeBody {s : WritePass} (h : s.conn.error = true) (env : WriteEnv)
    (response : HttpResponse) (rest : List HttpResponse) :
    (s.writeBody env response rest).conn.error = true := by
  unfold writeBody
  split
  · split
    · exact error_endBody h _ _ _
    · apply error_endBody
      exact h
    · simp only
      split
      · exact h
      · apply error_endBody
        exact h
  · exact h

/-- No step takes an error back. -/
theorem step_error {s t : WritePass} {env : WriteEnv} (h : s.step env = some t)
    (herror : s.conn.error = true) : t.conn.error = true := by
  cases stepCase_of_step h with
  | drain => exact error_drain herror _ _
  | takeUp =>
    unfold takeUp
    repeat' split
    all_goals exact herror
  | writeBody => exact error_writeBody herror _ _ _
  | removeSent =>
    unfold removeSent
    split <;> exact herror
  | _ => exact herror

end WritePass

/-- The passes over a connection, as a machine driven by what the system does. -/
def writeMachine (conn : WriteConn) : Machine WritePass WriteEnv := ⟨.start conn, WritePass.step⟩

end Khttp
