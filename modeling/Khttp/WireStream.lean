import Khttp.WritePass

/-!
# The bytes on the wire

Responses are appended to a connection while no pass is in progress; passes come and
go, and each may stop at any byte of a head or of a body. The bytes that the socket
has accepted are always the first part of the heads and bodies in list order, up to
the response that closes the connection.
-/

namespace Khttp

open Lib

/-- The bytes that the socket accepted, until the pass closed it. -/
def wire : List SysCall → Bytes
  | [] => []
  | .write offered (.accept n) :: calls => offered.take n ++ wire calls
  | .write _ .wouldBlock :: calls | .write _ .hardError :: calls | .readFailed :: calls =>
    wire calls
  | .close :: _ => []

/-- The heads and bodies of responses, each with the date that its head shows, up to
the first whose head says that the connection is closed. -/
def stream : List (Bytes × HttpResponse) → Bytes
  | [] => []
  | (date, response) :: rest =>
    match httpResponseWrite date response with
    | some (made, some head) =>
      head ++ response.body.bytes ++ if saysClose made = some true then [] else stream rest
    | _ => []

/-- A response as `http_response_new` makes it, with any headers and a body that is
`BODY_NONE` or has its data. -/
structure HttpResponse.Fresh (response : HttpResponse) : Prop where
  /-- Nothing of it has been sent. -/
  unsent : response.sendStatus = .sendResponseLine
  /-- Nothing of its body has been sent. -/
  unread : response.body.rOffset = 0
  /-- Its body can be sent. -/
  hasData : response.body.HasData

/-- The date of the head that `http_response_write` makes in a step of a pass, if it makes one. -/
def WritePass.datesHead (s : WritePass) (env : WriteEnv) : Option Bytes :=
  match s.pc, s.conn.pendingResponses with
  | .loop, response :: _ =>
    ((httpResponseWrite env.date response).bind Prod.snd).map fun _ => env.date
  | _, _ => none

/-- The write side of a connection over many passes. -/
structure WireRun where
  /-- The pass in progress, or the last one when it has finished. -/
  pass : WritePass
  /-- All responses appended so far. -/
  appended : List HttpResponse
  /-- The dates of the heads made so far, in order. -/
  dates : List Bytes

/-- What may happen to the write side of a connection. -/
inductive WireAction where
  /-- `http_response_list_append` between two passes. -/
  | append (response : HttpResponse)
  /-- A worker has fetched an item of the connection and locked it. -/
  | start
  /-- The pass in progress makes a step. -/
  | step (env : WriteEnv)

/-- The actions under consideration: fresh responses are appended, writes are accepted
or would block, and files are read without failure. -/
def WireAction.Ok : WireAction → Prop
  | .append response => response.Fresh
  | .start => True
  | .step env => env.write ≠ .hardError ∧ env.read = .full

/-- The write side of a connection as a machine, from `server_connection_new` on. -/
def wireMachine : Machine WireRun WireAction where
  init := ⟨⟨⟨.new, [], false, false⟩, false, .finished, []⟩, [], []⟩
  step s
    | .append response =>
      if s.pass.pc = .finished then
        some { s with
          pass.conn.pendingResponses := s.pass.conn.pendingResponses ++ [response]
          appended := s.appended ++ [response] }
      else none
    | .start =>
      if s.pass.pc = .finished then
        some { s with pass := { s.pass with blocked := false, pc := .drainFirst } }
      else none
    | .step env => (s.pass.step env).map fun pass =>
        { s with pass, dates := s.dates ++ (s.pass.datesHead env).toList }

/-- What is written after the socket was closed does not count. -/
theorem wire_append (calls calls' : List SysCall) :
    wire (calls ++ calls') = wire calls ++ if .close ∈ calls then [] else wire calls' := by
  induction calls with
  | nil => simp [wire]
  | cons call calls ih =>
    cases call with
    | write offered outcome => cases outcome <;> simp [wire, ih]
    | readFailed => simp [wire, ih]
    | close => simp [wire]

/-- Responses that were sent and left the connection open. -/
def AllSent (done : List (Bytes × HttpResponse)) : Prop :=
  ∀ p ∈ done, ∃ made head, httpResponseWrite p.1 p.2 = some (made, some head) ∧
    saysClose made ≠ some true

/-- The stream goes on behind responses that leave the connection open. -/
theorem stream_append {done : List (Bytes × HttpResponse)} (h : AllSent done)
    (rest : List (Bytes × HttpResponse)) : stream (done ++ rest) = stream done ++ stream rest := by
  induction done with
  | nil => rfl
  | cons p done ih =>
    obtain ⟨date, response⟩ := p
    obtain ⟨made, head, hmade, hopen⟩ := h (date, response) (by simp)
    have ih := ih fun q hq => h q (by simp [hq])
    simp only [List.cons_append, stream, hmade, if_neg hopen, ih, List.append_assoc]

/-- What is true of the responses before the one that is being sent. -/
structure Before (s : WritePass) (appended : List HttpResponse)
    (done : List (Bytes × HttpResponse)) (tail : List HttpResponse) : Prop where
  /-- They were sent and left the connection open. -/
  allSent : AllSent done
  /-- The others come behind them. -/
  appended_eq : appended = done.map Prod.snd ++ tail
  /-- The others were fresh when they were appended. -/
  fresh : ∀ response ∈ tail, response.Fresh
  /-- The socket is open. -/
  isOpen : .close ∉ s.calls

/-- How far the stream has come, where these dates are on the heads made so far. -/
inductive Progress (s : WritePass) (appended : List HttpResponse) (dates : List Bytes) : Prop
  /-- Every response taken up so far has been sent. -/
  | idle {done : List (Bytes × HttpResponse)} {k : ℕ}
      (hbefore : Before s appended done s.conn.pendingResponses)
      (hpc : s.pc ≠ .drainHead ∧ s.pc ≠ .afterHead ∧ s.pc ≠ .body ∧ s.pc ≠ .sent)
      (hloop : s.pc = .loop → s.conn.pendingWrites.first = none)
      (hholds : s.conn.pendingWrites.Holds k [])
      (hwire : wire s.calls = stream done)
      (hdates : dates = done.map Prod.fst)
  /-- A response is being sent: some of its head waits, or some of its body. -/
  | sending {done : List (Bytes × HttpResponse)} {response : HttpResponse}
      {rest : List HttpResponse} {date head : Bytes} {headers : List HttpHeader} {off k : ℕ}
      {bs : Bytes}
      (hbefore : Before s appended done (response :: rest))
      (hmade : httpResponseWrite date response =
        some ({ response with headers, sendStatus := .sendBody }, some head))
      (hresponses : s.conn.pendingResponses =
        { response with headers, sendStatus := .sendBody, body.rOffset := off } :: rest)
      (hpc : s.pc ≠ .sent)
      (hbody : s.pc = .body → s.conn.pendingWrites.first = none)
      (hholds : s.conn.pendingWrites.Holds k bs)
      (hwire : wire s.calls ++ bs ++ response.body.bytes.drop off =
        stream done ++ head ++ response.body.bytes)
      (hdates : dates = done.map Prod.fst ++ [date])
  /-- A response has been sent and is about to be removed. -/
  | sent {done : List (Bytes × HttpResponse)} {response : HttpResponse}
      {rest : List HttpResponse} {date head : Bytes} {headers : List HttpHeader} {off k : ℕ}
      (hbefore : Before s appended done (response :: rest))
      (hmade : httpResponseWrite date response =
        some ({ response with headers, sendStatus := .sendBody }, some head))
      (hresponses : s.conn.pendingResponses =
        { response with headers, sendStatus := .sendDone, body.rOffset := off } :: rest)
      (hpc : s.pc = .sent ∨ s.pc = .aborted)
      (hfirst : s.conn.pendingWrites.first = none)
      (hholds : s.conn.pendingWrites.Holds k [])
      (hwire : wire s.calls = stream done ++ head ++ response.body.bytes)
      (hdates : dates = done.map Prod.fst ++ [date])
  /-- A response has closed the socket. -/
  | closed {done : List (Bytes × HttpResponse)} {response made : HttpResponse}
      {rest : List HttpResponse} {date head : Bytes} {later : List Bytes}
      (hallSent : AllSent done)
      (happended : appended = done.map Prod.snd ++ response :: rest)
      (hmade : httpResponseWrite date response = some (made, some head))
      (hclose : saysClose made = some true)
      (hclosed : .close ∈ s.calls)
      (hwire : wire s.calls = stream done ++ head ++ response.body.bytes)
      (hdates : dates = done.map Prod.fst ++ date :: later)

/-- The stream of a response whose head could be made. -/
theorem stream_cons {date head : Bytes} {response made : HttpResponse}
    (hmade : httpResponseWrite date response = some (made, some head))
    (rest : List (Bytes × HttpResponse)) :
    stream ((date, response) :: rest) = head ++ response.body.bytes ++
      if saysClose made = some true then [] else stream rest := by
  simp only [stream, hmade]

/-- The responses with the dates on their heads. -/
theorem zip_dates (done : List (Bytes × HttpResponse)) (dates : List Bytes)
    (rest : List HttpResponse) :
    (done.map Prod.fst ++ dates).zip (done.map Prod.snd ++ rest) = done ++ dates.zip rest := by
  rw [List.zip_append (by simp), List.zip_map']
  simp

/-- However far it has come, the bytes on the wire are a first part of the stream. -/
theorem Progress.wire_prefix {s : WritePass} {appended : List HttpResponse} {dates : List Bytes}
    (h : Progress s appended dates) : wire s.calls <+: stream (dates.zip appended) := by
  cases h with
  | @idle done k hbefore _ _ _ hwire hdates =>
    have hzip := zip_dates done [] s.conn.pendingResponses
    rw [List.append_nil, ← hdates, ← hbefore.appended_eq] at hzip
    rw [hzip, List.zip_nil_left, List.append_nil, hwire]
  | @sending done response rest date head headers off k bs hbefore hmade _ _ _ _ hwire hdates =>
    rw [hdates, hbefore.appended_eq, zip_dates, stream_append hbefore.allSent, List.zip_cons_cons,
      stream_cons hmade, ← List.append_assoc, ← List.append_assoc, ← hwire, List.append_assoc,
      List.append_assoc]
    exact List.prefix_append _ _
  | @sent done response rest date head headers off k hbefore hmade _ _ _ _ hwire hdates =>
    rw [hdates, hbefore.appended_eq, zip_dates, stream_append hbefore.allSent, List.zip_cons_cons,
      stream_cons hmade, ← List.append_assoc, ← List.append_assoc, hwire]
    exact List.prefix_append _ _
  | @closed done response made rest date head later hallSent happended hmade hclose _ hwire
      hdates =>
    rw [hdates, happended, zip_dates, stream_append hallSent, List.zip_cons_cons,
      stream_cons hmade, if_pos hclose, hwire]
    simp

/-- What is accepted of a front part of the waiting bytes goes from there to the wire. -/
theorem wire_accepted {calls : List SysCall} {offered bs : Bytes} (n : ℕ)
    (hopen : .close ∉ calls) (hpre : offered <+: bs) :
    wire (calls ++ [.write offered (.accept n)]) ++ bs.drop (min n offered.length) =
      wire calls ++ bs := by
  obtain ⟨later, rfl⟩ := hpre
  rw [wire_append, if_neg hopen]
  have hmin : offered.take n = offered.take (min n offered.length) := by
    rw [List.take_eq_take_iff]
    omega
  rw [List.drop_append_of_le_length (by omega)]
  simp only [wire, List.append_nil, hmin, List.append_assoc]
  rw [← List.append_assoc (offered.take _), List.take_append_drop]

/-- A write that would block leaves the wire as it is. -/
theorem wire_wouldBlock {calls : List SysCall} {offered : Bytes} :
    wire (calls ++ [.write offered .wouldBlock]) = wire calls := by
  rw [wire_append]
  simp [wire]

/-- A write leaves the socket open. -/
theorem isOpen_write {calls : List SysCall} {offered : Bytes} {outcome : WriteOutcome}
    (hopen : .close ∉ calls) : .close ∉ calls ++ [SysCall.write offered outcome] := by
  simpa using hopen

variable {s t : WritePass} {appended : List HttpResponse} {dates : List Bytes}

/-- Heads are made at the head of the loop only. -/
theorem WritePass.dates_of_ne {env : WriteEnv} (h : s.pc ≠ .loop) :
    dates ++ (s.datesHead env).toList = dates := by
  unfold datesHead
  split
  · contradiction
  · exact List.append_nil dates

/-- What a step adds to the dates. -/
theorem WritePass.datesHead_cons {env : WriteEnv} {response : HttpResponse}
    {rest : List HttpResponse} (hpc : s.pc = .loop)
    (hresponses : s.conn.pendingResponses = response :: rest) :
    s.datesHead env =
      ((httpResponseWrite env.date response).bind Prod.snd).map fun _ => env.date := by
  simp only [datesHead, hpc, hresponses]

/-- A pass between two responses goes on to the next one or ends. -/
theorem Progress.step_idle {env : WriteEnv} {done : List (Bytes × HttpResponse)} {k : ℕ}
    (hbefore : Before s appended done s.conn.pendingResponses)
    (hpc : s.pc ≠ .drainHead ∧ s.pc ≠ .afterHead ∧ s.pc ≠ .body ∧ s.pc ≠ .sent)
    (hloop : s.pc = .loop → s.conn.pendingWrites.first = none)
    (hholds : s.conn.pendingWrites.Holds k []) (hwire : wire s.calls = stream done)
    (hdates : dates = done.map Prod.fst) (hstep : s.step env = some t) :
    Progress t appended (dates ++ (s.datesHead env).toList) := by
  obtain ⟨hallSent, happended, hfresh, hopen⟩ := hbefore
  cases hs : s.pc with
  | drainFirst =>
    simp only [WritePass.step, hs, Option.some.injEq] at hstep
    obtain rfl := hstep
    rw [WritePass.dates_of_ne (by simp [hs])]
    rcases WritePass.drain_cases hholds env.write .check with ⟨_, _, hdrain⟩ |
      ⟨l, k', hdrain, hl, _⟩ | ⟨offered, l, _, hne, hpre, _⟩
    · rw [hdrain]
      exact .idle ⟨hallSent, happended, hfresh, hopen⟩ (by simp) (by simp) hholds hwire hdates
    · rw [hdrain]
      exact .idle ⟨hallSent, happended, hfresh, hopen⟩ (by simp [hs]) (by simp [hs]) hl hwire hdates
    · exact absurd (List.prefix_nil.mp hpre) hne
  | check =>
    simp only [WritePass.step, hs, Option.some.injEq] at hstep
    obtain rfl := hstep
    rw [WritePass.dates_of_ne (by simp [hs])]
    refine .idle ⟨hallSent, happended, hfresh, hopen⟩ ?_ ?_ hholds hwire hdates
    · split <;> simp
    · split
      · exact fun _ => ‹_›
      · simp
  | loop =>
    have hfirst := hloop hs
    cases hresponses : s.conn.pendingResponses with
    | nil =>
      simp only [WritePass.step, hs, hresponses, Option.some.injEq] at hstep
      obtain rfl := hstep
      have hnone : s.datesHead env = none := by simp only [WritePass.datesHead, hs, hresponses]
      rw [hnone, Option.toList_none, List.append_nil]
      exact .idle ⟨hallSent, happended, hfresh, hopen⟩ (by simp) (by simp) hholds hwire hdates
    | cons response rest =>
      simp only [WritePass.step, hs, hresponses, Option.some.injEq] at hstep
      obtain rfl := hstep
      have hresponse : response.Fresh := hfresh response (by simp [hresponses])
      rw [WritePass.datesHead_cons hs hresponses]
      rcases WritePass.takeUp_cases env.date (Or.inl hfirst) hresponses with ⟨hcrash, htake⟩ |
        ⟨hmade, _⟩ | ⟨_, _, head, headers, l, k', hmade, hl, htake⟩
      · rw [htake, hcrash, Option.bind_none, Option.map_none, Option.toList_none, List.append_nil]
        exact .idle ⟨hallSent, happended, hfresh, hopen⟩ (by simp) (by simp) hholds hwire hdates
      · rcases hmade with hbody | hdone <;> simp [hresponse.unsent] at *
      · rw [htake]
        rw [hresponses] at happended hfresh
        refine .sending ⟨hallSent, happended, hfresh, hopen⟩ hmade
          (show _ :: rest = { response with
            headers, sendStatus := .sendBody, body.rOffset := response.body.rOffset } :: rest
            from rfl) (by simp) (by simp) hl ?_ ?_
        · rw [hresponse.unread, List.drop_zero, hwire]
        · rw [hmade, hdates]
          rfl
  | finished | aborted => simp [WritePass.step, hs] at hstep
  | drainHead => exact absurd hs hpc.1
  | afterHead => exact absurd hs hpc.2.1
  | body => exact absurd hs hpc.2.2.1
  | sent => exact absurd hs hpc.2.2.2

/-- A drain over a response whose head is made moves bytes from the list to the wire. -/
theorem Progress.drain_sending {env : WriteEnv} {done : List (Bytes × HttpResponse)}
    {response : HttpResponse} {rest : List HttpResponse} {date head : Bytes}
    {headers : List HttpHeader} {off k : ℕ} {bs : Bytes}
    (hbefore : Before s appended done (response :: rest))
    (hmade : httpResponseWrite date response =
      some ({ response with headers, sendStatus := .sendBody }, some head))
    (hresponses : s.conn.pendingResponses =
      { response with headers, sendStatus := .sendBody, body.rOffset := off } :: rest)
    (hpc : s.pc ≠ .sent ∧ s.pc ≠ .body) (hholds : s.conn.pendingWrites.Holds k bs)
    (hwire : wire s.calls ++ bs ++ response.body.bytes.drop off =
      stream done ++ head ++ response.body.bytes)
    (hdates : dates = done.map Prod.fst ++ [date])
    (hwrite : env.write ≠ .hardError) {next : WritePc} (hnext : next ≠ .sent ∧ next ≠ .body) :
    Progress (s.drain env.write next) appended dates := by
  obtain ⟨hallSent, happended, hfresh, hopen⟩ := hbefore
  rcases WritePass.drain_cases hholds env.write next with ⟨_, _, hdrain⟩ |
    ⟨l, k', hdrain, hl, _⟩ | ⟨offered, l, _, _, hpre, _, ⟨n, henv, hdrain, hl⟩ |
      ⟨henv, hdrain⟩ | ⟨henv, _⟩⟩
  · rw [hdrain]
    exact .sending ⟨hallSent, happended, hfresh, hopen⟩ hmade hresponses hnext.1
      (fun h => absurd h hnext.2) hholds hwire hdates
  · rw [hdrain]
    exact .sending ⟨hallSent, happended, hfresh, hopen⟩ hmade hresponses hpc.1
      (fun h => absurd h hpc.2) hl hwire hdates
  · rw [hdrain]
    refine .sending ⟨hallSent, happended, hfresh, isOpen_write hopen⟩ hmade hresponses hpc.1
      (fun h => absurd h hpc.2) hl ?_ hdates
    rw [henv, wire_accepted n hopen hpre, hwire]
  · rw [hdrain]
    refine .sending ⟨hallSent, happended, hfresh, isOpen_write hopen⟩ hmade hresponses hnext.1
      (fun h => absurd h hnext.2) hholds ?_ hdates
    rw [henv, wire_wouldBlock, hwire]
  · exact absurd henv hwrite

/-- A round of a body sends of it what is not on the wire yet. -/
theorem Progress.writeBody_sending {env : WriteEnv} {done : List (Bytes × HttpResponse)}
    {response : HttpResponse} {rest : List HttpResponse} {date head : Bytes}
    {headers : List HttpHeader} {off k : ℕ}
    (hbefore : Before s appended done (response :: rest))
    (hmade : httpResponseWrite date response =
      some ({ response with headers, sendStatus := .sendBody }, some head))
    (hs : s.pc = .body) (hfirst : s.conn.pendingWrites.first = none)
    (hholds : s.conn.pendingWrites.Holds k [])
    (hwire : wire s.calls ++ response.body.bytes.drop off =
      stream done ++ head ++ response.body.bytes)
    (hdates : dates = done.map Prod.fst ++ [date])
    (hok : env.write ≠ .hardError ∧ env.read = .full) :
    Progress (s.writeBody env
      { response with headers, sendStatus := .sendBody, body.rOffset := off } rest)
      appended dates := by
  obtain ⟨hallSent, happended, hfresh, hopen⟩ := hbefore
  have hdata : HttpBody.HasData { response.body with rOffset := off } :=
    (hfresh response (by simp)).hasData
  have hcases := @WritePass.writeBody_cases s env
    { response with headers, sendStatus := .sendBody, body.rOffset := off } rest hdata
  rcases hcases with ⟨hremaining, hround⟩ |
    ⟨offered, _, hpre, ⟨n, henv, hround | ⟨hread, _⟩⟩ | ⟨henv, hround⟩ | ⟨henv, _⟩⟩ |
    ⟨hread, _⟩
  · rw [hround]
    have hdrop : response.body.bytes.drop off = [] := hremaining
    rw [hdrop, List.append_nil] at hwire
    exact .sent ⟨hallSent, happended, hfresh, hopen⟩ hmade rfl (Or.inl rfl) hfirst hholds
      hwire hdates
  · rw [hround]
    refine .sending ⟨hallSent, happended, hfresh, isOpen_write hopen⟩ hmade rfl
      (by simp [hs]) (fun _ => hfirst) hholds ?_ hdates
    rw [henv, List.append_nil, ← List.drop_drop]
    exact (wire_accepted n hopen hpre).trans hwire
  · exact absurd hok.2 hread
  · rw [hround]
    refine .sending ⟨hallSent, happended, hfresh, isOpen_write hopen⟩ hmade rfl (by
      simp [WritePass.endBody]) (by simp [WritePass.endBody]) hholds ?_ hdates
    rw [List.append_nil]
    exact (congrArg (· ++ _) (henv ▸ wire_wouldBlock)).trans hwire
  · exact absurd henv hok.1
  · exact absurd hok.2 hread

/-- A pass over a response whose head is made sends of its head and then of its body. -/
theorem Progress.step_sending {env : WriteEnv} {done : List (Bytes × HttpResponse)}
    {response : HttpResponse} {rest : List HttpResponse} {date head : Bytes}
    {headers : List HttpHeader} {off k : ℕ} {bs : Bytes}
    (hbefore : Before s appended done (response :: rest))
    (hmade : httpResponseWrite date response =
      some ({ response with headers, sendStatus := .sendBody }, some head))
    (hresponses : s.conn.pendingResponses =
      { response with headers, sendStatus := .sendBody, body.rOffset := off } :: rest)
    (hpc : s.pc ≠ .sent) (hbody : s.pc = .body → s.conn.pendingWrites.first = none)
    (hholds : s.conn.pendingWrites.Holds k bs)
    (hwire : wire s.calls ++ bs ++ response.body.bytes.drop off =
      stream done ++ head ++ response.body.bytes)
    (hdates : dates = done.map Prod.fst ++ [date])
    (hok : env.write ≠ .hardError ∧ env.read = .full) (hstep : s.step env = some t) :
    Progress t appended (dates ++ (s.datesHead env).toList) := by
  have ⟨hallSent, happended, hfresh, hopen⟩ := hbefore
  cases hs : s.pc with
  | drainFirst =>
    simp only [WritePass.step, hs, Option.some.injEq] at hstep
    obtain rfl := hstep
    rw [WritePass.dates_of_ne (by simp [hs])]
    exact drain_sending hbefore hmade hresponses (by simp [hs]) hholds hwire hdates hok.1 (by simp)
  | drainHead =>
    simp only [WritePass.step, hs, Option.some.injEq] at hstep
    obtain rfl := hstep
    rw [WritePass.dates_of_ne (by simp [hs])]
    exact drain_sending hbefore hmade hresponses (by simp [hs]) hholds hwire hdates hok.1 (by simp)
  | check =>
    simp only [WritePass.step, hs, Option.some.injEq] at hstep
    obtain rfl := hstep
    rw [WritePass.dates_of_ne (by simp [hs])]
    refine .sending ⟨hallSent, happended, hfresh, hopen⟩ hmade hresponses ?_ ?_ hholds hwire hdates
    · split <;> simp
    · split <;> simp
  | loop =>
    simp only [WritePass.step, hs, hresponses, Option.some.injEq] at hstep
    obtain rfl := hstep
    have hnone : s.datesHead env = none := by rw [WritePass.datesHead_cons hs hresponses]; rfl
    rw [WritePass.takeUp_of_headMade (Or.inl rfl) hresponses, hnone, Option.toList_none,
      List.append_nil]
    exact .sending ⟨hallSent, happended, hfresh, hopen⟩ hmade hresponses (by simp) (by simp)
      hholds hwire hdates
  | afterHead =>
    simp only [WritePass.step, hs, hresponses] at hstep
    rw [WritePass.dates_of_ne (by simp [hs])]
    split at hstep
    · rename_i hready
      have hbs := hholds.eq_nil hready.2
      split at hstep
      · rename_i hnone
        obtain rfl := Option.some.inj hstep
        have hbytes : response.body.bytes = [] := by simp [HttpBody.bytes, hnone]
        have hsent : wire s.calls = stream done ++ head ++ response.body.bytes := by
          simpa [hbytes, hbs] using hwire
        rw [hbs] at hholds
        exact .sent ⟨hallSent, happended, hfresh, hopen⟩ hmade rfl (Or.inl rfl) hready.2
          hholds hsent hdates
      · obtain rfl := Option.some.inj hstep
        exact .sending ⟨hallSent, happended, hfresh, hopen⟩ hmade hresponses (by simp)
          (fun _ => hready.2) hholds hwire hdates
    · obtain rfl := Option.some.inj hstep
      exact .sending ⟨hallSent, happended, hfresh, hopen⟩ hmade hresponses (by simp) (by simp)
        hholds hwire hdates
  | body =>
    simp only [WritePass.step, hs, hresponses, Option.some.injEq] at hstep
    obtain rfl := hstep
    have hfirst := hbody hs
    obtain rfl := hholds.eq_nil hfirst
    rw [List.append_nil] at hwire
    rw [WritePass.dates_of_ne (by simp [hs])]
    exact writeBody_sending hbefore hmade hs hfirst hholds hwire hdates hok
  | sent => exact absurd hs hpc
  | finished | aborted => simp [WritePass.step, hs] at hstep

/-- A response that has been sent leaves the list, and the socket stays open unless its
head says that it is closed. -/
theorem Progress.step_sent {env : WriteEnv} {done : List (Bytes × HttpResponse)}
    {response : HttpResponse} {rest : List HttpResponse} {date head : Bytes}
    {headers : List HttpHeader} {off k : ℕ} (hbefore : Before s appended done (response :: rest))
    (hmade : httpResponseWrite date response =
      some ({ response with headers, sendStatus := .sendBody }, some head))
    (hresponses : s.conn.pendingResponses =
      { response with headers, sendStatus := .sendDone, body.rOffset := off } :: rest)
    (hpc : s.pc = .sent ∨ s.pc = .aborted) (hfirst : s.conn.pendingWrites.first = none)
    (hholds : s.conn.pendingWrites.Holds k [])
    (hwire : wire s.calls = stream done ++ head ++ response.body.bytes)
    (hdates : dates = done.map Prod.fst ++ [date]) (hstep : s.step env = some t) :
    Progress t appended (dates ++ (s.datesHead env).toList) := by
  obtain ⟨hallSent, happended, hfresh, hopen⟩ := hbefore
  rw [WritePass.dates_of_ne (by rcases hpc with hs | hs <;> simp [hs])]
  rcases hpc with hs | hs
  · simp only [WritePass.step, hs, hresponses, Option.some.injEq] at hstep
    obtain rfl := hstep
    unfold WritePass.removeSent
    match hclose : saysClose { response with headers, sendStatus := .sendBody } with
    | none =>
      exact .sent ⟨hallSent, happended, hfresh, hopen⟩ hmade hresponses (Or.inr rfl) hfirst
        hholds hwire hdates
    | some true =>
      refine .closed hallSent happended hmade hclose (by simp) ?_ hdates
      rw [wire_append, if_neg hopen]
      simpa [wire] using hwire
    | some false =>
      have hleft : saysClose { response with headers, sendStatus := .sendBody } ≠ some true := by
        simp [hclose]
      have hallSent' : AllSent (done ++ [(date, response)]) := by
        intro p hp
        rcases List.mem_append.mp hp with hp | hp
        · exact hallSent p hp
        · obtain rfl := List.mem_singleton.mp hp
          exact ⟨_, head, hmade, hleft⟩
      have hwire' : wire s.calls = stream (done ++ [(date, response)]) := by
        rw [stream_append hallSent, stream_cons hmade, if_neg hleft]
        simpa [stream] using hwire
      exact .idle ⟨hallSent', by simp [happended], fun r hr => hfresh r (by simp [hr]), hopen⟩
        (by simp) (fun _ => hfirst) hholds hwire' (by simp [hdates])
  · simp [WritePass.step, hs] at hstep

/-- **Step lemma.** A step of a pass under the assumed outcomes continues the stream. -/
theorem Progress.step {env : WriteEnv} (h : Progress s appended dates)
    (hok : env.write ≠ .hardError ∧ env.read = .full) (hstep : s.step env = some t) :
    Progress t appended (dates ++ (s.datesHead env).toList) := by
  cases h with
  | idle hbefore hpc hloop hholds hwire hdates =>
    exact step_idle hbefore hpc hloop hholds hwire hdates hstep
  | sending hbefore hmade hresponses hpc hbody hholds hwire hdates =>
    exact step_sending hbefore hmade hresponses hpc hbody hholds hwire hdates hok hstep
  | sent hbefore hmade hresponses hpc hfirst hholds hwire hdates =>
    exact step_sent hbefore hmade hresponses hpc hfirst hholds hwire hdates hstep
  | @closed done _ _ _ date _ later hallSent happended hmade hclose hclosed hwire hdates =>
    obtain ⟨calls, hcalls⟩ := WritePass.step_calls hstep
    have hmore : dates ++ (s.datesHead env).toList =
        done.map Prod.fst ++ date :: (later ++ (s.datesHead env).toList) := by
      rw [hdates, List.append_assoc, List.cons_append]
    refine .closed hallSent happended hmade hclose (by simp [← hcalls, hclosed]) ?_ hmore
    rw [← hcalls, wire_append, if_pos hclosed, List.append_nil, hwire]

/-- Appending a fresh response between two passes continues the stream. -/
theorem Progress.append {response : HttpResponse} (h : Progress s appended dates)
    (hpc : s.pc = .finished) (hresponse : response.Fresh) :
    Progress { s with conn.pendingResponses := s.conn.pendingResponses ++ [response] }
      (appended ++ [response]) dates := by
  have hbefore {done : List (Bytes × HttpResponse)} {tail : List HttpResponse}
      (h : Before s appended done tail) :
      Before { s with conn.pendingResponses := s.conn.pendingResponses ++ [response] }
        (appended ++ [response]) done (tail ++ [response]) := by
    refine ⟨h.allSent, by rw [h.appended_eq, List.append_assoc], ?_, h.isOpen⟩
    intro r hr
    rcases List.mem_append.mp hr with hr | hr
    · exact h.fresh r hr
    · obtain rfl := List.mem_singleton.mp hr
      exact hresponse
  cases h with
  | idle h hidle hloop hholds hwire hdates =>
    exact .idle (hbefore h) hidle hloop hholds hwire hdates
  | sending h hmade hresponses hsent hbody hholds hwire hdates =>
    exact .sending (hbefore h) hmade (by simp [hresponses]) hsent hbody hholds hwire hdates
  | sent h hmade hresponses hsent => simp [hpc] at hsent
  | closed hallSent happended hmade hclose hclosed hwire hdates =>
    exact .closed hallSent (by rw [happended, List.append_assoc, List.cons_append]) hmade hclose
      hclosed hwire hdates

/-- A new pass continues the stream. -/
theorem Progress.start (h : Progress s appended dates) (hpc : s.pc = .finished) :
    Progress { s with blocked := false, pc := .drainFirst } appended dates := by
  cases h with
  | idle h _ _ hholds hwire hdates =>
    exact .idle ⟨h.allSent, h.appended_eq, h.fresh, h.isOpen⟩ (by simp) (by simp) hholds hwire
      hdates
  | sending h hmade hresponses _ _ hholds hwire hdates =>
    exact .sending ⟨h.allSent, h.appended_eq, h.fresh, h.isOpen⟩ hmade hresponses (by simp)
      (by simp) hholds hwire hdates
  | sent h hmade hresponses hsent => simp [hpc] at hsent
  | closed hallSent happended hmade hclose hclosed hwire hdates =>
    exact .closed hallSent happended hmade hclose hclosed hwire hdates

/-- **The wire stream.** In every run in which fresh responses are appended between
passes, writes are accepted in any portions or would block, and files are read without
failure, the bytes that the socket has accepted are a first part of the heads and
bodies of the responses in list order, up to the one that closes the connection. The date
on each head is that of the step that made it. -/
theorem wire_prefix_stream {actions : List WireAction} {s : WireRun}
    (hrun : wireMachine.run actions = some s) (hok : ∀ a ∈ actions, a.Ok) :
    wire s.pass.calls <+: stream (s.dates.zip s.appended) := by
  have hprogress : Progress s.pass s.appended s.dates := by
    apply wireMachine.invariant (fun _ a => a.Ok) (fun s => Progress s.pass s.appended s.dates)
      ?_ ?_ (wireMachine.meets_of_forall_mem _ hok) hrun
    · intro s a t h ha hstep
      cases a with
      | append response =>
        simp only [wireMachine, Option.ite_none_right_eq_some, Option.some.injEq] at hstep
        obtain ⟨hpc, rfl⟩ := hstep
        exact h.append hpc ha
      | start =>
        simp only [wireMachine, Option.ite_none_right_eq_some, Option.some.injEq] at hstep
        obtain ⟨hpc, rfl⟩ := hstep
        exact h.start hpc
      | step env =>
        simp only [wireMachine, Option.map_eq_some_iff] at hstep
        obtain ⟨pass, hpass, rfl⟩ := hstep
        exact h.step ha hpass
    · have hallSent : AllSent [] := by simp [AllSent]
      exact .idle ⟨hallSent, rfl, by simp [wireMachine], by simp [wireMachine]⟩
        (by simp [wireMachine]) (by simp [wireMachine]) (DataBufferList.holds_nil_of_first rfl) rfl
        rfl
  exact hprogress.wire_prefix

/-- A page of three bytes. -/
def shortPage : HttpResponse :=
  { httpResponseNew (httpResponseLineNew 200) with
    body := .new .bodyString (some (ascii "abc")) }

/-- An interim response and the page are appended, and a pass sends them until the socket has
taken two bytes of the page. -/
def interimAndPage : List WireAction :=
  .append (httpResponseNew (httpResponseLineNew 100)) :: .append shortPage :: .start ::
    (List.replicate 8 (.step ⟨.accept 1000, .full, false, ascii "then"⟩) ++
      List.replicate 5 (.step ⟨.accept 1000, .full, false, ascii "now"⟩) ++
      [.step ⟨.accept 2, .full, false, ascii "now"⟩])

/-- What has been taken by then is a first part of the stream, and ends with the two bytes. -/
theorem wire_prefix_stream_page : ∃ s, wireMachine.run interimAndPage = some s ∧
    s.dates = [ascii "then", ascii "now"] ∧ ascii "\r\n\r\nab" <:+ wire s.pass.calls ∧
    wire s.pass.calls <+: stream (s.dates.zip s.appended) := by
  have hok : ∀ a ∈ interimAndPage, a.Ok := by
    have hpage : shortPage.Fresh := ⟨rfl, rfl, Or.inr (by simp [shortPage, HttpBody.new])⟩
    refine List.forall_mem_cons.mpr ⟨⟨rfl, rfl, Or.inl rfl⟩,
      List.forall_mem_cons.mpr ⟨hpage, List.forall_mem_cons.mpr ⟨trivial, fun a ha => ?_⟩⟩⟩
    simp only [List.mem_append, List.mem_replicate, List.mem_singleton] at ha
    rcases ha with (⟨_, rfl⟩ | ⟨_, rfl⟩) | rfl
    all_goals exact ⟨by simp, rfl⟩
  have hstate : (wireMachine.run interimAndPage).map
      (fun s => (s.dates, (wire s.pass.calls).drop 115)) =
      some ([ascii "then", ascii "now"], ascii "\r\n\r\nab") := by decide +kernel
  obtain ⟨s, hrun, hs⟩ := Option.map_eq_some_iff.mp hstate
  obtain ⟨hdates, hend⟩ := Prod.mk.inj hs
  exact ⟨s, hrun, hdates, hend ▸ List.drop_suffix 115 _, wire_prefix_stream hrun hok⟩

end Khttp
