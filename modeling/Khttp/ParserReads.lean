import Khttp.ParserRefinement
import Khttp.RequestDelivery

/-!
# The read loop with its parser

`server_loop_read` with `http_parser_execute` and the callbacks of `http-reader.c` on the bytes
that `read` returns. It refines the read loop in which what the parser does is given.
-/

namespace Khttp

open Lib

/-- `server_loop_read` where `read` has returned bytes, with `conn->parse_state->parser`. -/
def readBytes (errorPage : Option Bytes) (conn : ServerConnection) (p : HttpParser) (data : Bytes) :
    Option (ReadPass × HttpParser) :=
  ((httpParserExecute p data).run ServerParseStatus.callback conn.parseState).bind
    fun (parseState, p, parsed) =>
      let conn := { conn with parseState }
      if p.upgrade then
        (conn.appendError errorPage 501 (ascii "Protocol upgrade is not supported")).map fun conn =>
          (⟨conn, false, [.poolWrite], []⟩, p)
      else if parsed ≠ data.length ∨ p.httpErrno ≠ .ok then
        (conn.appendError errorPage 400 (httpErrnoDescription p.httpErrno)).map fun conn =>
          (⟨conn, false, [.poolWrite], []⟩, p)
      else if parseState.requestComplete then
        parseState.currentRequest.map fun request =>
          -- `server_parser_status_reset` initialises the parser again
          (⟨{ conn with
              pendingRequests := conn.pendingRequests ++ [request]
              parseState := parseState.reset },
            false, [.poolWorker, .poolWrite], [request]⟩, .init)
      else if sendsContinue parseState then
        some (⟨conn.appendResponse (httpResponseNew (httpResponseLineNew 100)), false,
          [.poolWrite, .poolWrite], []⟩, p)
      else some (⟨conn, false, [.poolWrite], []⟩, p)

/-- What the parser has done with some bytes. -/
def HttpParser.runOf (p : HttpParser) (callbacks : List ParserCallback) (parsed : ℕ)
    (data : Bytes) :
    ParserRun where
  callbacks
  upgrade := p.upgrade
  parsed := parsed = data.length ∧ p.httpErrno = .ok
  description := httpErrnoDescription p.httpErrno

/-- What the parser does with the bytes of a read: the callbacks that it makes as long as they
return zero, and what the callbacks of `http-reader.c` leave of it behind them. Where one of them
has no result the parser is left as if they all returned zero. -/
def HttpParser.readRun (p : HttpParser) (parseState : ServerParseStatus) (data : Bytes) :
    Option ParserRun :=
  ((httpParserExecute p data).record 0).map fun (callbacks, recorded) =>
    match (httpParserExecute p data).run ServerParseStatus.callback parseState with
    | some (_, p, parsed) => p.runOf callbacks parsed data
    | none => recorded.1.runOf callbacks recorded.2 data

/-- The callbacks return zero or stop the parser. -/
theorem callback_stops {s t : ServerParseStatus} {cb : ParserCallback} {code : ℤ}
    (h : s.callback cb = some (t, code)) : code = 0 ∨ stopsParser cb code := by
  by_cases hcode : code = 0
  · exact Or.inl hcode
  · refine Or.inr ⟨hcode, ?_⟩
    rintro ⟨rfl, rfl⟩
    obtain ⟨_, _, heq⟩ := Option.map_eq_some_iff.mp h
    simp at heq

/-- The callbacks of a read are replayed as the read loop executes them. -/
theorem replay_callback (s : ServerParseStatus) (cbs : List ParserCallback) :
    Calls.replay ServerParseStatus.callback 0 s cbs = s.execute cbs := by
  induction cbs generalizing s with
  | nil => rfl
  | cons cb cbs ih =>
    rw [Calls.replay, ServerParseStatus.execute.eq_2]
    cases hcb : s.callback cb with
    | none => rfl
    | some result =>
      obtain ⟨t, code⟩ := result
      rw [Option.bind_some]
      by_cases hcode : code = 0
      · subst hcode
        simpa using ih t
      · simp [hcode]

/-- The pass behind a call of the parser. -/
theorem readBytes_of_run {errorPage : Option Bytes} {conn : ServerConnection} {p p' : HttpParser}
    {data : Bytes} {parseState : ServerParseStatus} {parsed : ℕ}
    (hrun : (httpParserExecute p data).run ServerParseStatus.callback conn.parseState =
      some (parseState, p', parsed)) {returnedZero : Bool}
    (hzero : returnedZero = false → p'.httpErrno ≠ .ok) (cs : List ParserCallback)
    (h : p'.Settled) :
    (readBytes errorPage conn p data).map Prod.fst =
        readData errorPage conn (p'.runOf cs parsed data) parseState returnedZero ∧
      ∀ result ∈ readBytes errorPage conn p data, result.2.Settled := by
  have hparsed : (!((p'.runOf cs parsed data).parsed && returnedZero)) = true ↔
      parsed ≠ data.length ∨ p'.httpErrno ≠ .ok := by
    cases returnedZero with
    | true => simp [HttpParser.runOf]
    | false => simp [hzero rfl]
  unfold readBytes readData
  rw [hrun, Option.bind_some]
  dsimp only
  have hupgrade : (p'.runOf cs parsed data).upgrade = p'.upgrade := rfl
  have hdescription : (p'.runOf cs parsed data).description =
      httpErrnoDescription p'.httpErrno := rfl
  rw [hupgrade, hdescription]
  simp only [hparsed]
  split
  · refine ⟨by simp [Function.comp_def], fun result hresult => ?_⟩
    obtain ⟨conn', _, rfl⟩ := Option.map_eq_some_iff.mp hresult
    exact h
  · split
    · refine ⟨by simp [Function.comp_def], fun result hresult => ?_⟩
      obtain ⟨conn', _, rfl⟩ := Option.map_eq_some_iff.mp hresult
      exact h
    · split
      · refine ⟨by simp [Function.comp_def], fun result hresult => ?_⟩
        obtain ⟨request, _, rfl⟩ := Option.map_eq_some_iff.mp hresult
        exact HttpParser.sound_init.settled
      · split
        · refine ⟨rfl, fun result hresult => ?_⟩
          obtain rfl := Option.mem_some.mp hresult
          exact h
        · refine ⟨rfl, fun result hresult => ?_⟩
          obtain rfl := Option.mem_some.mp hresult
          exact h

/-- **One read.** The pass over the bytes is the one with what the parser does with them. -/
theorem readBytes_eq (errorPage : Option Bytes) (conn : ServerConnection) {p : HttpParser}
    (h : p.Settled) (data : Bytes) :
    ∃ run, p.readRun conn.parseState data = some run ∧
      (readBytes errorPage conn p data).map Prod.fst = serverLoopRead errorPage conn (.data run) ∧
      ∀ result ∈ readBytes errorPage conn p data, result.2.Settled := by
  have hmeets := httpParserExecute_meets h data
  have hzero : ∀ c, ¬stopsParser c 0 := fun _ hstops => hstops.1 rfl
  have hhandler (s : ServerParseStatus) (cb : ParserCallback) (t : ServerParseStatus) (code : ℤ)
      (hcb : s.callback cb = some (t, code)) : code = 0 ∨ stopsParser cb code := callback_stops hcb
  obtain ⟨cs, ⟨p', parsed⟩, hrecord, hgood⟩ := hmeets.exists_record hzero
  have hrun := hmeets.run_eq hzero hhandler hrecord conn.parseState
  rw [replay_callback] at hrun
  cases hexecute : conn.parseState.execute cs with
  | none =>
    rw [hexecute] at hrun
    have hnone : readBytes errorPage conn p data = none := by
      rw [readBytes, hrun, Option.bind_none]
    refine ⟨p'.runOf cs parsed data, by simp [HttpParser.readRun, hrecord, hrun], ?_,
      by simp [hnone]⟩
    rw [hnone, serverLoopRead]
    simp [HttpParser.runOf, hexecute]
  | some result =>
    obtain ⟨parseState, returnedZero⟩ := result
    rw [hexecute] at hrun
    cases returnedZero with
    | true =>
      have htrue : true = false → p'.httpErrno ≠ .ok := by simp
      obtain ⟨hpass, hsettled⟩ := @readBytes_of_run errorPage _ _ _ _ _ _ hrun _ htrue cs hgood.1
      refine ⟨p'.runOf cs parsed data, by simp [HttpParser.readRun, hrecord, hrun], ?_, hsettled⟩
      rw [hpass, serverLoopRead]
      simp [HttpParser.runOf, hexecute]
    | false =>
      obtain ⟨⟨q, n⟩, hrun, herror, _⟩ := hrun
      have hfalse : false = false → q.httpErrno ≠ .ok := fun _ => herror
      have hq : q.Settled := fun hok => absurd hok herror
      obtain ⟨hpass, hsettled⟩ := @readBytes_of_run errorPage _ _ _ _ _ _ hrun _ hfalse cs hq
      refine ⟨q.runOf cs n data, by simp [HttpParser.readRun, hrecord, hrun], ?_, hsettled⟩
      rw [hpass, serverLoopRead]
      simp [HttpParser.runOf, hexecute]

/-- What `read` returns in `server_loop_read`. -/
inductive BytesRead where
  /-- It fails with `EAGAIN` or `EWOULDBLOCK`. -/
  | wouldBlock
  /-- It fails with another error. -/
  | failed
  /-- The peer has closed its side. -/
  | eof
  /-- It returns bytes. -/
  | data (bytes : Bytes)
  deriving DecidableEq, Repr

/-- What may happen to the read side of a connection. -/
inductive ByteAction where
  /-- A read pass. -/
  | read (result : BytesRead)
  /-- A worker takes the first pending request, if there is one. -/
  | takeRequest
  deriving DecidableEq, Repr

/-- `server_loop_read` on a locked connection, with its parser. -/
def serverLoopReadBytes (errorPage : Option Bytes) (conn : ServerConnection) (p : HttpParser) :
    BytesRead → Option (ReadPass × HttpParser)
  | .wouldBlock => some (⟨conn, true, [], []⟩, p)
  | .failed => some (⟨{ conn with out.error := true }, false, [], []⟩, p)
  | .eof => some (⟨conn, false, [], []⟩, p)
  | .data bytes => readBytes errorPage conn p bytes

/-- The read side of a connection with its parser, from `server_connection_new` on. -/
def byteMachine (errorPage : Option Bytes) : Machine (ReadRun × HttpParser) ByteAction where
  init := (⟨.new 0, []⟩, .init)
  step := fun (s, p) a =>
    match a with
    | .read result => (serverLoopReadBytes errorPage s.conn p result).map fun (pass, p) =>
        (⟨pass.conn, s.appended ++ pass.appended⟩, p)
    | .takeRequest =>
        some ({ s with conn.pendingRequests := s.conn.pendingRequests.tail }, p)

/-- The action of the read loop without a parser that stands for one of the read loop with its
parser: what is given for the bytes of a read is what the parser does with them here. -/
def ByteAction.Gives (s : ReadRun × HttpParser) : ByteAction → ReadAction → Prop
  | .read (.data bytes), .read (.data run) => s.2.readRun s.1.conn.parseState bytes = some run
  | .read .wouldBlock, .read .wouldBlock | .read .failed, .read .failed
  | .read .eof, .read .eof | .takeRequest, .takeRequest => True
  | _, _ => False

/-- **Every step** of the read loop with its parser is one of the read loop without it. -/
theorem byteMachine_step (errorPage : Option Bytes) (s : ReadRun) {p : HttpParser} (h : p.Settled)
    (a : ByteAction) :
    ∃ b, a.Gives (s, p) b ∧ Option.Rel (fun t u => t.1 = u ∧ t.2.Settled)
      ((byteMachine errorPage).step (s, p) a) ((readMachine errorPage).step s b) := by
  cases a with
  | takeRequest => exact ⟨.takeRequest, trivial, .some ⟨rfl, h⟩⟩
  | read result =>
    cases result with
    | wouldBlock => exact ⟨.read .wouldBlock, trivial, .some ⟨rfl, h⟩⟩
    | failed => exact ⟨.read .failed, trivial, .some ⟨rfl, h⟩⟩
    | eof => exact ⟨.read .eof, trivial, .some ⟨rfl, h⟩⟩
    | data bytes =>
      obtain ⟨run, hgiven, hpass, hsettled⟩ := readBytes_eq errorPage s.conn h bytes
      refine ⟨.read (.data run), hgiven, ?_⟩
      simp only [byteMachine, readMachine, serverLoopReadBytes, ← hpass]
      cases hread : readBytes errorPage s.conn p bytes with
      | none => exact .none
      | some result => exact .some ⟨rfl, hsettled result hread⟩

/-- **Every run** of the read loop with its parser is one of the read loop without it, given what
the parser does as the run has left it, and one fails where the other does. -/
theorem byteMachine_refines (errorPage : Option Bytes) (actions : List ByteAction) :
    ∃ reads, (byteMachine errorPage).Matches (fun s a b => a.Gives s b)
        (byteMachine errorPage).init actions reads ∧
      ((byteMachine errorPage).run actions).map Prod.fst = (readMachine errorPage).run reads := by
  have hstep (s : ReadRun × HttpParser) (t : ReadRun) (a : ByteAction)
      (h : s.1 = t ∧ s.2.Settled) :
      ∃ b, a.Gives s b ∧ Option.Rel (fun t u => t.1 = u ∧ t.2.Settled)
        ((byteMachine errorPage).step s a) ((readMachine errorPage).step t b) := by
    obtain ⟨rfl, hsettled⟩ := h
    exact byteMachine_step errorPage s.1 hsettled a
  obtain ⟨reads, hreads, hrel⟩ := (byteMachine errorPage).simulation (readMachine errorPage) hstep
    (s := (byteMachine errorPage).init) (t := (readMachine errorPage).init)
    ⟨rfl, HttpParser.sound_init.settled⟩ actions
  refine ⟨reads, hreads, ?_⟩
  unfold Machine.run
  generalize (byteMachine errorPage).runFrom _ actions = u at hrel ⊢
  generalize (readMachine errorPage).runFrom _ reads = v at hrel ⊢
  cases hrel with
  | none => rfl
  | some h => rw [Option.map_some, h.1]

end Khttp
