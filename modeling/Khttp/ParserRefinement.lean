import Khttp.ParserTexts

/-!
# The loop of the parser refines the parser byte by byte

`http_parser_execute` reports a text in as few pieces as its buffers allow and takes the bytes of
a body at once. Up to the pieces of the texts, its callbacks are those of the single bytes.
-/

namespace Khttp

open Lib

namespace Execution

/-- The callbacks for the marks that are set. -/
def opened (s : Execution) : List ParserCallback :=
  [ParserMark.headerField, .headerValue, .url, .body].filterMap fun m =>
    (s.marks m).map (m.callback s.parser)

/-- The callback for the mark that is set. -/
theorem opened_eq {s : Execution} {pending : Option (ParserMark × Bytes)}
    (h : s.marks = marksOf pending) : s.opened = (pendingCallback s.parser pending).toList := by
  unfold opened pendingCallback
  rw [h]
  cases pending with
  | none => simp [marksOf]
  | some pending =>
    obtain ⟨m, text⟩ := pending
    cases m <;> simp [marksOf, ParserMark.callback_eq]

end Execution

/-- A case of the `switch` at `pos`, with a text that is pending, does what the byte does. -/
def Realizes (pending : Option ParserCallback) (pos : ℕ) (r : ByteStep) (m : ParserCase) : Prop :=
  ∃ cs after, m.record 0 = some (cs, after) ∧
    match after, r with
    | .next t skip, .next ev p =>
      skip = 0 ∧ t.parser = p ∧ SameTexts (pending.toList ++ ev) (cs ++ t.opened)
    | .stop t parsed, .stop ev p =>
      t.parser = p ∧ parsed = pos + (if p.httpErrno = .ok then 1 else 0) ∧
        ∃ left : Option ParserCallback,
          SameTexts (pending.toList ++ ev) (cs ++ left.toList) ∧
            (p.httpErrno = .ok → left = none ∧ p.state.Opens none ∧ p.upgrade = true)
    | _, _ => False

section Realizes

variable {before behind : Option ParserCallback} {pos : ℕ} {r : ByteStep}

/-- A callback for what is pending, or for something else. -/
theorem Realizes.call {cb : ParserCallback} {next : ℤ → ParserCase}
    (h : Realizes behind pos r (next 0)) (hsame : SameTexts before.toList (cb :: behind.toList)) :
    Realizes before pos r (.call cb next) := by
  obtain ⟨cs, result, hrecord, hresult⟩ := h
  have hfront {ev ds : List ParserCallback} (h : SameTexts (behind.toList ++ ev) ds) :
      SameTexts (before.toList ++ ev) (cb :: ds) :=
    (hsame.append_left ev).trans (h.append_right [cb])
  refine ⟨cb :: cs, result, by rw [Calls.record_call, hrecord, Option.map_some], ?_⟩
  cases result with
  | next t skip =>
    cases r with
    | next ev p => exact ⟨hresult.1, hresult.2.1, hfront hresult.2.2⟩
    | stop => exact hresult
  | stop t parsed =>
    cases r with
    | next => exact hresult
    | stop ev p =>
      obtain ⟨hp, hparsed, left, hleft, hok⟩ := hresult
      exact ⟨hp, hparsed, left, hfront hleft, hok⟩

/-- A callback that the byte makes too. -/
theorem Realizes.after {cb : ParserCallback} {next : ℤ → ParserCase}
    (h : Realizes none pos r (next 0)) : Realizes none pos (r.after cb) (.call cb next) := by
  obtain ⟨cs, result, hrecord, hresult⟩ := h
  refine ⟨cb :: cs, result, by rw [Calls.record_call, hrecord, Option.map_some], ?_⟩
  cases result with
  | next t skip =>
    cases r with
    | next ev p => exact ⟨hresult.1, hresult.2.1, hresult.2.2.append_right [cb]⟩
    | stop => exact hresult
  | stop t parsed =>
    cases r with
    | next => exact hresult
    | stop ev p =>
      obtain ⟨hp, hparsed, left, hleft, hok⟩ := hresult
      exact ⟨hp, hparsed, left, hleft.append_right [cb], hok⟩

end Realizes

namespace Execution

variable {s : Execution} {pending : Option (ParserMark × Bytes)} {ch : UInt8}

/-- `break`, with the same text as before. -/
theorem realizes_goOn {p : HttpParser} (hmarks : s.marks = marksOf pending) {pos : ℕ}
    (hkind : ∀ m text, pending = some (m, text) → m.kind p = m.kind s.parser) :
    Realizes (pendingCallback s.parser pending) pos
      (.next (pending.map fun (m, _) => (m.kind s.parser).callback [ch]).toList p)
      (s.goOn p ch) := by
  refine ⟨[], _, Calls.record_done _ _, rfl, rfl, ?_⟩
  have hopened := opened_eq (s := { s.pass [ch] with parser := p }) (pass_marks hmarks [ch])
  rw [hopened]
  cases pending with
  | none => exact .refl _
  | some pending =>
    obtain ⟨m, text⟩ := pending
    have hsame := (m.kind s.parser).sameTexts text [ch] []
    simpa [pendingCallback, extend, hkind m text rfl] using hsame

/-- `break` with a text that begins at the byte. -/
theorem realizes_mark {p : HttpParser} {m : ParserMark} (hmarks : s.marks = marksOf none)
    {pos : ℕ} :
    Realizes none pos (.next [(m.kind p).callback [ch]] p) ((s.mark m).goOn p ch) := by
  refine ⟨[], _, Calls.record_done _ _, rfl, rfl, ?_⟩
  have hopened := opened_eq (s := { (s.mark m).pass [ch] with parser := p })
    (pass_marks (mark_marks hmarks m) [ch])
  rw [hopened]
  exact .refl _

/-- `goto error`. -/
theorem realizes_fail (before : Option ParserCallback) (p : HttpParser) {e : HttpErrno}
    (he : e ≠ .ok) : Realizes before s.p (.stop [] (p.fail e)) (s.settle (p.fail e) ch) := by
  have hne : (p.fail e).httpErrno ≠ .ok := he
  unfold settle
  rw [if_neg hne]
  refine ⟨[], _, Calls.record_done _ _, rfl, by rw [if_neg hne]; rfl, before, ?_,
    fun h => absurd h hne⟩
  simpa using SameTexts.refl _

/-- A parser that may have an error. -/
theorem realizes_settle {before : Option ParserCallback} {p : HttpParser}
    {cbs : List ParserCallback}
    (h : Realizes before s.p (.next cbs p) (s.goOn p ch)) :
    Realizes before s.p (p.accept cbs) (s.settle p ch) := by
  unfold settle HttpParser.accept
  split
  · exact h
  · next hne =>
    refine ⟨[], _, Calls.record_done _ _, rfl, by rw [if_neg hne]; rfl, before, ?_,
      fun h => absurd h hne⟩
    simpa using SameTexts.refl _

/-- A case that neither sets a mark nor makes a callback. -/
theorem realizes_plain {before : Option ParserCallback} {result : Option HttpParser}
    {cbs : List ParserCallback} (hresult : ∃ p', result = some p')
    (h : ∀ p', result = some p' → Realizes before s.p (.next cbs p') (s.goOn p' ch)) :
    Realizes before s.p (s.parser.acceptCase result cbs) (s.plain result ch) := by
  obtain ⟨p', rfl⟩ := hresult
  exact realizes_settle (h p' rfl)

/-- A callback without data. -/
theorem realizes_callbackNotify {cb : ParserCallback} {er pos : ℕ} {r : ByteStep}
    {rest : Execution → ParserCase} (hok : s.parser.httpErrno = .ok)
    (h : Realizes none pos r (rest s)) :
    Realizes none pos (r.after cb) (s.callbackNotify cb er rest) := by
  unfold callbackNotify
  rw [if_pos hok]
  exact .after h

/-- The callback for the text that is pending. -/
theorem realizes_callbackData {m : ParserMark} {text : Bytes} {er pos : ℕ} {r : ByteStep}
    {rest : Execution → ParserCase} {p : HttpParser} (hok : s.parser.httpErrno = .ok)
    (hmarks : s.marks = marksOf (some (m, text))) (hkind : m.kind s.parser = m.kind p)
    (h : Realizes none pos r (rest { s with marks := marksOf none })) :
    Realizes (pendingCallback p (some (m, text))) pos r (s.callbackData m [] er rest) := by
  have hmark : s.marks m = some text := by simp [hmarks, marksOf]
  have hrest : Realizes none pos r (rest { s with marks := Function.update s.marks m none }) := by
    rwa [hmarks, update_marksOf]
  unfold callbackData
  rw [if_pos hok, hmark]
  dsimp only
  refine hrest.call ?_
  rw [ParserMark.callback_eq, List.append_nil, hkind]
  exact .refl _

/-- Nothing is pending and nothing is reported. -/
theorem realizes_skip {p : HttpParser} {pos : ℕ} (hmarks : s.marks = marksOf none) :
    Realizes none pos (.next [] p) (s.goOn p ch) :=
  realizes_goOn (show s.marks = marksOf none from hmarks) (by simp)

/-- `s_start_req`. -/
theorem realizes_startReq (hok : s.parser.httpErrno = .ok) (hmarks : s.marks = marksOf none) :
    Realizes none s.p (s.parser.startReqStep ch) (s.startReq ch) := by
  unfold startReq HttpParser.startReqStep
  split
  · exact realizes_skip hmarks
  · dsimp only
    split
    · exact realizes_fail _ _ (by decide)
    · cases HttpParser.firstMethod ch with
      | none => exact realizes_fail _ _ (by decide)
      | some method => exact realizes_callbackNotify (r := .next [] _) hok (realizes_skip hmarks)

/-- A character of the target. -/
theorem realizes_parseUrl {text : Bytes} (from' : UrlState)
    (hmarks : s.marks = marksOf (some (.url, text))) :
    Realizes (pendingCallback s.parser (some (.url, text))) s.p (s.parser.targetStep ch from')
      (s.parseUrl from' ch) := by
  unfold parseUrl HttpParser.targetStep
  cases parseUrlChar from' ch with
  | dead => exact realizes_fail _ _ (by decide)
  | _ =>
    exact realizes_goOn hmarks fun m text' heq => by
      obtain ⟨rfl, _⟩ := Prod.mk.inj (Option.some.inj heq)
      rfl

/-- A character of the target, the first one. -/
theorem realizes_parseUrl_mark (from' : UrlState) (hmarks : s.marks = marksOf none) :
    Realizes none s.p (s.parser.targetStep ch from') ((s.mark .url).parseUrl from' ch) := by
  unfold parseUrl HttpParser.targetStep
  cases parseUrlChar from' ch with
  | dead => exact realizes_fail (s := s.mark .url) _ _ (by decide)
  | _ => exact realizes_mark (m := .url) hmarks

/-- The cases of the target. -/
theorem realizes_reqUrl (h : s.parser.SoundAt 1) {u : UrlState}
    (hstate : s.parser.state = .reqUrl u)
    (hmarks : s.marks = marksOf pending) (hopens : s.parser.state.Opens pending) :
    Realizes (pendingCallback s.parser pending) s.p (s.parser.reqUrlStep ch u) (s.reqUrl u ch) := by
  have hdead : u ≠ .dead := by simpa only [HttpParser.InState, hstate] using h.inState
  rw [hstate] at hopens
  cases u with
  | dead => exact absurd rfl hdead
  | spacesBeforeUrl =>
    obtain rfl : pending = none := hopens
    unfold reqUrl HttpParser.reqUrlStep
    dsimp only
    split
    · exact realizes_skip hmarks
    · have hsame : (s.mark .url).parser.method = s.parser.method := rfl
      rw [hsame]
      split
      · exact realizes_parseUrl_mark (s := s.setState (.reqUrl .serverStart)) _ hmarks
      · exact realizes_parseUrl_mark _ hmarks
  | schema | schemaSlash | schemaSlashSlash | serverStart =>
    obtain ⟨text, rfl⟩ := hopens
    unfold reqUrl HttpParser.reqUrlStep
    dsimp only
    split
    · exact realizes_fail _ _ (by decide)
    · exact realizes_parseUrl _ hmarks
  | server | serverWithAt | path | queryStringStart | queryString | fragmentStart | fragment =>
    obtain ⟨text, rfl⟩ := hopens
    unfold reqUrl HttpParser.reqUrlStep
    dsimp only
    split
    · exact realizes_callbackData (s := s.setState .reqHttpStart) h.ok hmarks rfl
        (realizes_skip rfl)
    · split
      · exact realizes_callbackData (s := { s with parser := { s.parser with
          httpMajor := 0
          httpMinor := 9
          state := if ch = cr then .reqLineAlmostDone else .headerFieldStart } }) h.ok hmarks rfl
          (realizes_skip rfl)
      · exact realizes_parseUrl _ hmarks

/-- The end of a message behind which there can be another one. -/
theorem realizes_completeMessage (hok : s.parser.httpErrno = .ok) (hmarks : s.marks = marksOf none)
    {pos : ℕ} : Realizes none pos s.parser.messageStep
      (s.completeMessage fun s => s.goOn s.parser ch) :=
  realizes_callbackNotify (s := s.setState s.parser.newMessage) (r := .next [] _) hok
    (realizes_skip hmarks)

/-- The end of the header. -/
theorem realizes_afterHeaders (hok : s.parser.httpErrno = .ok) (hmarks : s.marks = marksOf none) :
    Realizes none s.p s.parser.afterHeadersStep (s.afterHeaders ch) := by
  unfold afterHeaders HttpParser.afterHeadersStep
  split
  · next hupgrade =>
    refine realizes_callbackNotify (s := s.setState s.parser.newMessage) (r := .stop [] _) hok ?_
    have hopens : s.parser.newMessage.Opens none := by
      rcases newMessage_cases s.parser with heq | heq <;> rw [heq] <;> rfl
    exact ⟨[], _, Calls.record_done _ _, rfl, by rw [if_pos hok]; rfl, none, .refl _,
      fun _ => ⟨rfl, hopens, hupgrade⟩⟩
  · split
    · exact realizes_completeMessage hok hmarks
    · split
      · exact realizes_skip hmarks
      · split
        · exact realizes_completeMessage hok hmarks
        · split
          · exact realizes_skip hmarks
          · exact realizes_completeMessage hok hmarks

/-- `s_headers_done`. -/
theorem realizes_headersDone (hok : s.parser.httpErrno = .ok) (hmarks : s.marks = marksOf none) :
    Realizes none s.p (s.parser.headersDoneStep ch) (s.headersDone ch) := by
  unfold headersDone HttpParser.headersDoneStep
  split
  · exact realizes_afterHeaders (s := { s with parser.nread := 0 }) hok hmarks
  · exact realizes_fail _ _ (by decide)

/-- `s_headers_almost_done`. -/
theorem realizes_headersAlmostDone (hok : s.parser.httpErrno = .ok)
    (hmarks : s.marks = marksOf none) :
    Realizes none s.p (s.parser.headersAlmostDoneStep ch) (s.headersAlmostDone ch) := by
  unfold headersAlmostDone HttpParser.headersAlmostDoneStep
  split
  · split
    · exact realizes_completeMessage hok hmarks
    · refine Realizes.after ?_
      exact realizes_headersDone (s := { s with
        parser.state := .headersDone
        parser.upgrade := s.parser.flags.upgrade || s.parser.method = HttpMethod.connect })
          hok hmarks
  · exact realizes_fail _ _ (by decide)

/-- `s_header_field_start`. -/
theorem realizes_headerFieldStart (hok : s.parser.httpErrno = .ok)
    (hmarks : s.marks = marksOf none) :
    Realizes none s.p (s.parser.headerFieldStartStep ch) (s.headerFieldStart ch) := by
  unfold headerFieldStart HttpParser.headerFieldStartStep
  split
  · exact realizes_skip hmarks
  · split
    · exact realizes_headersAlmostDone (s := s.setState .headersAlmostDone) hok hmarks
    · dsimp only
      split
      · exact realizes_fail _ _ (by decide)
      · exact realizes_mark (m := .headerField) hmarks

/-- `s_header_field`. -/
theorem realizes_headerField (h : s.parser.SoundAt 1) (hstate : s.parser.state = .headerField)
    {text : Bytes} (hmarks : s.marks = marksOf (some (.headerField, text))) :
    Realizes (pendingCallback s.parser (some (.headerField, text))) s.p
      (s.parser.headerFieldStep ch) (s.headerField ch) := by
  have hend (state : ParserState) :
      Realizes (pendingCallback s.parser (some (.headerField, text))) s.p
        (.next [] { s.parser with state })
        ((s.setState state).callbackData .headerField [] (s.p + 1) fun s => s.goOn s.parser ch) :=
    realizes_callbackData (s := s.setState state) h.ok hmarks rfl (realizes_skip rfl)
  unfold headerField HttpParser.headerFieldStep
  dsimp only
  split
  · obtain ⟨p', hp', _⟩ := @HttpParser.matchName_settled _ ch h hstate (token ch)
    refine realizes_plain ⟨p', hp'⟩ fun p' hp' => ?_
    refine realizes_goOn hmarks fun m text' heq => ?_
    obtain ⟨rfl, _⟩ := Prod.mk.inj (Option.some.inj heq)
    exact congrArg (fun k => TextKind.headerField k.2.1 k.2.2.1) (HttpParser.matchName_known hp')
  · split
    · exact hend _
    · split
      · exact hend _
      · split
        · exact hend _
        · exact realizes_fail _ _ (by decide)

/-- `s_header_value_start`. -/
theorem realizes_headerValueStart (hmarks : s.marks = marksOf none) :
    Realizes none s.p (s.parser.headerValueStartStep ch) (s.headerValueStart ch) :=
  realizes_settle (s := s.mark .headerValue) (realizes_mark (m := .headerValue) hmarks)

/-- `s_header_value_discard_ws`. -/
theorem realizes_headerValueDiscardWs (hmarks : s.marks = marksOf none) :
    Realizes none s.p (s.parser.headerValueDiscardWsStep ch) (s.headerValueDiscardWs ch) := by
  unfold headerValueDiscardWs HttpParser.headerValueDiscardWsStep
  split
  · exact realizes_skip hmarks
  · split
    · exact realizes_skip hmarks
    · split
      · exact realizes_skip hmarks
      · exact realizes_headerValueStart hmarks

/-- `s_header_value`. -/
theorem realizes_headerValue (h : s.parser.SoundAt 1) (hstate : s.parser.state = .headerValue)
    {text : Bytes} (hmarks : s.marks = marksOf (some (.headerValue, text))) :
    Realizes (pendingCallback s.parser (some (.headerValue, text))) s.p
      (s.parser.headerValueStep ch) (s.headerValue ch) := by
  unfold headerValue HttpParser.headerValueStep
  split
  · exact realizes_callbackData (s := s.setState .headerAlmostDone) h.ok hmarks rfl
      (realizes_skip rfl)
  · split
    · refine realizes_callbackData (s := s.setState .headerAlmostDone) h.ok hmarks rfl ?_
      have hsound : ({ s.parser with state := .headerAlmostDone } : HttpParser).SoundAt 1 :=
        h.setState trivial
      obtain ⟨p', hp', _⟩ := @HttpParser.plainCase_settled _ ch hsound trivial
      exact realizes_plain (s := ⟨{ s.parser with state := .headerAlmostDone }, s.p, marksOf none⟩)
        ⟨p', hp'⟩ fun p' _ => realizes_skip rfl
    · obtain ⟨p', hp', _⟩ := @HttpParser.matchValue_settled _ ch h hstate
      refine realizes_plain ⟨p', hp'⟩ fun p' _ => ?_
      refine realizes_goOn hmarks fun m text' heq => ?_
      obtain ⟨rfl, _⟩ := Prod.mk.inj (Option.some.inj heq)
      rfl

/-- `s_header_value_lws`. -/
theorem realizes_headerValueLws (hok : s.parser.httpErrno = .ok) (hmarks : s.marks = marksOf none) :
    Realizes none s.p (s.parser.headerValueLwsStep ch) (s.headerValueLws ch) := by
  unfold headerValueLws HttpParser.headerValueLwsStep
  split
  · exact realizes_headerValueStart (s := s.setState .headerValueStart) hmarks
  · refine realizes_headerFieldStart (s := { s with parser := s.parser.endHeader }.setState
      .headerFieldStart) ?_ hmarks
    unfold HttpParser.endHeader
    split <;> exact hok

/-- `s_header_value_discard_lws`. -/
theorem realizes_headerValueDiscardLws (hok : s.parser.httpErrno = .ok)
    (hmarks : s.marks = marksOf none) :
    Realizes none s.p (s.parser.headerValueDiscardLwsStep ch) (s.headerValueDiscardLws ch) := by
  have hmark : ((s.mark .headerValue).setState .headerFieldStart).marks .headerValue = some [] := by
    simp [setState, mark, hmarks, marksOf]
  have hrest : Function.update ((s.mark .headerValue).setState .headerFieldStart).marks
      .headerValue none = marksOf none := by
    have hset : ((s.mark .headerValue).setState .headerFieldStart).marks =
        marksOf (some (.headerValue, [])) := mark_marks hmarks _
    rw [hset, update_marksOf]
  unfold headerValueDiscardLws HttpParser.headerValueDiscardLwsStep
  split
  · exact realizes_skip hmarks
  · unfold callbackData
    rw [if_pos
      (show ((s.mark .headerValue).setState .headerFieldStart).parser.httpErrno = .ok from hok),
      hmark]
    dsimp only
    refine Realizes.after ?_
    rw [if_pos rfl, hrest]
    exact realizes_headerFieldStart (s := ⟨{ s.parser with state := .headerFieldStart }, s.p,
      marksOf none⟩) hok rfl

/-- `s_chunk_data_almost_done`. -/
theorem realizes_chunkDataAlmostDone (h : s.parser.SoundAt 1)
    (hstate : s.parser.state = .chunkDataAlmostDone) (hmarks : s.marks = marksOf pending)
    (hopens : s.parser.state.Opens pending) :
    Realizes (pendingCallback s.parser pending) s.p (s.parser.chunkDataAlmostDoneStep ch)
      (s.chunkDataAlmostDone ch) := by
  have hin : s.parser.flags.chunked = true ∧ s.parser.contentLength = 0 := by
    simpa only [HttpParser.InState, hstate] using h.inState
  rw [hstate] at hopens
  unfold chunkDataAlmostDone HttpParser.chunkDataAlmostDoneStep
  rw [if_pos hin]
  split
  · rcases hopens with rfl | ⟨text, rfl⟩
    · have hnone : (s.setState .chunkDataDone).marks .body = none := by
        simp [setState, hmarks, marksOf]
      unfold callbackData
      rw [if_pos (show (s.setState .chunkDataDone).parser.httpErrno = .ok from h.ok), hnone]
      exact realizes_skip (s := s.setState .chunkDataDone) hmarks
    · exact realizes_callbackData (s := s.setState .chunkDataDone) h.ok hmarks rfl
        (realizes_skip rfl)
  · exact realizes_fail _ _ (by decide)

/-- **Cases of single bytes.** Every case that looks at one byte does what the byte does. -/
theorem realizes_switchState (h : s.parser.SoundAt 1) (hmarks : s.marks = marksOf pending)
    (hopens : s.parser.state.Opens pending) (hbody : s.parser.state ≠ .bodyIdentity)
    (hchunk : s.parser.state ≠ .chunkData) (rest : Bytes) :
    Realizes (pendingCallback s.parser pending) s.p (s.parser.stateStep ch)
      (s.switchState ch rest) := by
  unfold switchState HttpParser.stateStep
  cases hstate : s.parser.state with
  | startReq =>
    obtain rfl : pending = none := by
      simpa only [hstate, ParserState.Opens] using hopens
    exact realizes_startReq h.ok hmarks
  | reqUrl u => exact realizes_reqUrl h hstate hmarks hopens
  | headerFieldStart =>
    obtain rfl : pending = none := by
      simpa only [hstate, ParserState.Opens] using hopens
    exact realizes_headerFieldStart h.ok hmarks
  | headerField =>
    obtain ⟨text, rfl⟩ : ∃ text, pending = some (.headerField, text) := by
      simpa only [hstate, ParserState.Opens] using hopens
    exact realizes_headerField h hstate hmarks
  | headerValueDiscardWs =>
    obtain rfl : pending = none := by
      simpa only [hstate, ParserState.Opens] using hopens
    exact realizes_headerValueDiscardWs hmarks
  | headerValueDiscardLws =>
    obtain rfl : pending = none := by
      simpa only [hstate, ParserState.Opens] using hopens
    exact realizes_headerValueDiscardLws h.ok hmarks
  | headerValueStart =>
    obtain rfl : pending = none := by
      simpa only [hstate, ParserState.Opens] using hopens
    exact realizes_headerValueStart hmarks
  | headerValue =>
    obtain ⟨text, rfl⟩ : ∃ text, pending = some (.headerValue, text) := by
      simpa only [hstate, ParserState.Opens] using hopens
    exact realizes_headerValue h hstate hmarks
  | headerValueLws =>
    obtain rfl : pending = none := by
      simpa only [hstate, ParserState.Opens] using hopens
    exact realizes_headerValueLws h.ok hmarks
  | headersAlmostDone =>
    obtain rfl : pending = none := by
      simpa only [hstate, ParserState.Opens] using hopens
    exact realizes_headersAlmostDone h.ok hmarks
  | headersDone =>
    obtain rfl : pending = none := by
      simpa only [hstate, ParserState.Opens] using hopens
    exact realizes_headersDone h.ok hmarks
  | bodyIdentity => exact absurd hstate hbody
  | chunkData => exact absurd hstate hchunk
  | chunkDataAlmostDone => exact realizes_chunkDataAlmostDone h hstate hmarks hopens
  | messageDone =>
    obtain rfl : pending = none := by
      simpa only [hstate, ParserState.Opens] using hopens
    exact realizes_completeMessage h.ok hmarks
  | dead | reqMethod | reqHttpStart | reqHttpH | reqHttpHT | reqHttpHTT | reqHttpHTTP
  | reqFirstHttpMajor | reqHttpMajor | reqFirstHttpMinor | reqHttpMinor | reqLineAlmostDone
  | headerValueDiscardWsAlmostDone | headerAlmostDone | chunkSizeStart | chunkSize
  | chunkParameters | chunkSizeAlmostDone | chunkDataDone =>
    have hplain : s.parser.state.IsPlain := by rw [hstate]; trivial
    obtain rfl := hopens.eq_none hplain
    obtain ⟨p', hp', _⟩ := @HttpParser.plainCase_settled _ ch h hplain
    exact realizes_plain ⟨p', hp'⟩ fun p' _ => realizes_skip hmarks

end Execution

namespace HttpParser

variable {p : HttpParser} {ch : UInt8} {text : Bytes}

/-- The callbacks for the bytes of a body. -/
def bodyBytes (text : Bytes) : List ParserCallback := text.map fun ch => .body [ch]

/-- A byte outside the header. -/
theorem step_of_not_parsingHeader (h : p.state.parsingHeader = false) :
    p.step ch = p.stateStep ch := by
  rw [step, h, if_neg Bool.false_ne_true]

/-- A byte of a body that is not its last one. -/
theorem step_bodyIdentity (hstate : p.state = .bodyIdentity) (hlt : 1 < p.contentLength) :
    p.step ch = .next [.body [ch]] { p with contentLength := p.contentLength - 1 } := by
  have hne : p.contentLength - 1 ≠ 0 := by omega
  rw [step_of_not_parsingHeader (by rw [hstate]; rfl)]
  simp only [stateStep, hstate, bodyIdentityStep]
  rw [if_neg hne]

/-- The last byte of a body. -/
theorem step_bodyIdentity_last (hstate : p.state = .bodyIdentity) (hone : p.contentLength = 1) :
    p.step ch = .next [.body [ch], .messageComplete]
      { p with contentLength := 0, state := p.newMessage } := by
  rw [step_of_not_parsingHeader (by rw [hstate]; rfl)]
  simp only [stateStep, hstate, bodyIdentityStep, hone]
  rfl

/-- A byte of a chunk that is not its last one. -/
theorem step_chunkData (hstate : p.state = .chunkData) (hlt : 1 < p.contentLength) :
    p.step ch = .next [.body [ch]] { p with contentLength := p.contentLength - 1 } := by
  have hne : p.contentLength - 1 ≠ 0 := by omega
  rw [step_of_not_parsingHeader (by rw [hstate]; rfl)]
  simp only [stateStep, hstate, chunkDataStep]
  rw [if_neg hne]

/-- The last byte of a chunk. -/
theorem step_chunkData_last (hstate : p.state = .chunkData) (hone : p.contentLength = 1) :
    p.step ch = .next [.body [ch]]
      { p with contentLength := 0, state := .chunkDataAlmostDone } := by
  rw [step_of_not_parsingHeader (by rw [hstate]; rfl)]
  simp only [stateStep, hstate, chunkDataStep, hone]
  rfl

/-- Bytes of a body or a chunk, but not all of it. -/
theorem reads_body (hstate : p.state = .bodyIdentity ∨ p.state = .chunkData)
    (hlt : text.length < p.contentLength) :
    p.Reads text (bodyBytes text) { p with contentLength := p.contentLength - text.length } := by
  induction text generalizing p with
  | nil => exact .nil p
  | cons ch rest ih =>
    rw [List.length_cons] at hlt
    have hlt' : rest.length < p.contentLength - 1 := by omega
    have hrest := ih (p := { p with contentLength := p.contentLength - 1 }) hstate hlt'
    have hsub : p.contentLength - 1 - rest.length = p.contentLength - (ch :: rest).length := by
      rw [List.length_cons]
      omega
    dsimp only at hrest
    rw [hsub] at hrest
    have hone : 1 < p.contentLength := by omega
    rcases hstate with hstate | hstate
    · exact .cons (step_bodyIdentity hstate hone) hrest
    · exact .cons (step_chunkData hstate hone) hrest

/-- A whole body or chunk, with what its last byte does. -/
theorem reads_body_all (hstate : p.state = .bodyIdentity ∨ p.state = .chunkData) (hne : text ≠ [])
    (hlength : text.length = p.contentLength) {cbs : List ParserCallback} {p' : HttpParser}
    (hlast : ∀ ch, ({ p with contentLength := 1 } : HttpParser).step ch =
      .next (.body [ch] :: cbs) p') :
    p.Reads text (bodyBytes text ++ cbs) p' := by
  have hpos := List.length_pos_of_ne_nil hne
  have hfront : text.dropLast.length < p.contentLength := by
    rw [List.length_dropLast]
    omega
  have hone : p.contentLength - text.dropLast.length = 1 := by
    rw [List.length_dropLast]
    omega
  have hreads := reads_body hstate hfront
  rw [hone] at hreads
  have hall := hreads.append (.single (hlast (text.getLast hne)))
  rw [List.dropLast_append_getLast hne] at hall
  have hbytes : bodyBytes text = bodyBytes text.dropLast ++ [.body [text.getLast hne]] := by
    conv_lhs => rw [← List.dropLast_append_getLast hne]
    simp [bodyBytes]
  rw [hbytes, List.append_assoc]
  exact hall

/-- A whole body. -/
theorem reads_bodyIdentity_all (hstate : p.state = .bodyIdentity) (hne : text ≠ [])
    (hlength : text.length = p.contentLength) :
    p.Reads text (bodyBytes text ++ [.messageComplete])
      { p with contentLength := 0, state := p.newMessage } :=
  reads_body_all (Or.inl hstate) hne hlength fun _ =>
    step_bodyIdentity_last (p := { p with contentLength := 1 }) hstate rfl

/-- A whole chunk. -/
theorem reads_chunkData_all (hstate : p.state = .chunkData) (hne : text ≠ [])
    (hlength : text.length = p.contentLength) :
    p.Reads text (bodyBytes text)
      { p with contentLength := 0, state := .chunkDataAlmostDone } := by
  have hreads : p.Reads text (bodyBytes text ++ [])
      { p with contentLength := 0, state := .chunkDataAlmostDone } :=
    reads_body_all (Or.inr hstate) hne hlength fun _ =>
      step_chunkData_last (p := { p with contentLength := 1 }) hstate rfl
  rwa [List.append_nil] at hreads

/-- The bytes of a body, behind what is pending of it, are one text. -/
theorem sameTexts_bodyBytes (front : Bytes) (text : Bytes) (cs : List ParserCallback) :
    SameTexts (.body front :: (bodyBytes text ++ cs)) (.body (front ++ text) :: cs) :=
  coalesce_pieces joining (TextKind.join_callback .body) front text cs

/-- The bytes of a body, behind what may be pending of it, are one text. -/
theorem sameTexts_pending {pending : Option (ParserMark × Bytes)}
    (hpending : pending = none ∨ ∃ text, pending = some (.body, text)) (hne : text ≠ [])
    (cs : List ParserCallback) :
    SameTexts ((pendingCallback p pending).toList ++ (bodyBytes text ++ cs))
      (.body (Execution.pendingText pending ++ text) :: cs) := by
  rcases hpending with rfl | ⟨front, rfl⟩
  · obtain ⟨ch, rest, rfl⟩ := List.exists_cons_of_ne_nil hne
    exact sameTexts_bodyBytes [ch] rest cs
  · exact sameTexts_bodyBytes front text cs

end HttpParser

/-- What the loop does at some bytes, of which it makes callbacks, is what they do one by one. -/
def Covers (before : Option ParserCallback) (p : HttpParser) (pos : ℕ) (data : Bytes)
    (cs : List ParserCallback) : AfterByte → Prop
  | .next t skip => ∃ ev, p.Reads (data.take (skip + 1)) ev t.parser ∧
      SameTexts (before.toList ++ ev) (cs ++ t.opened)
  | .stop t parsed => (p.steps data).parser = t.parser ∧ parsed = pos + (p.steps data).parsed ∧
      ∃ left : Option ParserCallback,
        SameTexts (before.toList ++ (p.steps data).callbacks) (cs ++ left.toList) ∧
          (t.parser.httpErrno = .ok → left = none ∧ t.parser.state.Opens none ∧
            t.parser.upgrade = true)

/-- A case of a single byte. -/
theorem Realizes.covers {before : Option ParserCallback} {p : HttpParser} {pos : ℕ} {ch : UInt8}
    {m : ParserCase} (h : Realizes before pos (p.step ch) m) (rest : Bytes) :
    ∃ cs after, m.record 0 = some (cs, after) ∧ Covers before p pos (ch :: rest) cs after := by
  obtain ⟨cs, after, hrecord, hafter⟩ := h
  refine ⟨cs, after, hrecord, ?_⟩
  cases after with
  | next t skip =>
    cases hstep : p.step ch with
    | stop => simp [hstep] at hafter
    | next ev p' =>
      simp only [hstep] at hafter
      obtain ⟨rfl, rfl, hsame⟩ := hafter
      exact ⟨ev, .single hstep, hsame⟩
  | stop t parsed =>
    cases hstep : p.step ch with
    | next => simp [hstep] at hafter
    | stop ev p' =>
      simp only [hstep] at hafter
      obtain ⟨rfl, hparsed, hleft⟩ := hafter
      have hsteps : p.steps (ch :: rest) =
          ⟨ev, t.parser, if t.parser.httpErrno = .ok then 1 else 0⟩ := by
        rw [HttpParser.steps, hstep]
      rw [Covers, hsteps]
      exact ⟨rfl, hparsed, hleft⟩

namespace Execution

variable {s : Execution} {pending : Option (ParserMark × Bytes)} {ch : UInt8}

/-- A data callback that is made. -/
theorem record_callbackData {m : ParserMark} {text extra : Bytes} {er : ℕ}
    {rest : Execution → ParserCase} (hok : s.parser.httpErrno = .ok)
    (hmark : s.marks m = some text) :
    (s.callbackData m extra er rest).record 0 =
      ((rest { s with marks := Function.update s.marks m none }).record 0).map fun (cs, r) =>
        ((m.kind s.parser).callback (text ++ extra) :: cs, r) := by
  unfold callbackData
  rw [if_pos hok, hmark]
  dsimp only
  rw [Calls.record_call, if_pos rfl, ParserMark.callback_eq]

/-- A callback without data. -/
theorem record_callbackNotify {cb : ParserCallback} {er : ℕ} {rest : Execution → ParserCase}
    (hok : s.parser.httpErrno = .ok) :
    (s.callbackNotify cb er rest).record 0 =
      ((rest s).record 0).map fun (cs, r) => (cb :: cs, r) := by
  unfold callbackNotify
  rw [if_pos hok, Calls.record_call, if_pos rfl]

/-- The bytes of the body that are there are the first ones. -/
theorem take_bodyBytes (s : Execution) (ch : UInt8) (rest : Bytes)
    (hpos : 0 < (s.bodyBytes (ch :: rest)).length) :
    (ch :: rest).take ((s.bodyBytes (ch :: rest)).length - 1 + 1) = s.bodyBytes (ch :: rest) := by
  rw [Nat.sub_add_cancel hpos]
  exact (List.prefix_iff_eq_take.mp (List.take_prefix _ _)).symm

/-- `s_body_identity`. -/
theorem covers_bodyIdentity (h : s.parser.SoundAt 1) (hstate : s.parser.state = .bodyIdentity)
    (hmarks : s.marks = marksOf pending) (hopens : s.parser.state.Opens pending) (rest : Bytes) :
    ∃ cs after, (s.bodyIdentity ch rest).record 0 = some (cs, after) ∧
      Covers (pendingCallback s.parser pending) s.parser s.p (ch :: rest) cs after := by
  have hin : s.parser.contentLength ≠ 0 ∧ s.parser.contentLength < ullongMax := by
    simpa only [HttpParser.InState, hstate] using h.inState
  rw [hstate] at hopens
  obtain ⟨hpos, hrest, hle⟩ := @length_bodyBytes s ch rest hin.1
  have htake := take_bodyBytes s ch rest hpos
  unfold bodyIdentity
  rw [if_pos ⟨hin.1, hin.2.ne⟩]
  dsimp only
  generalize s.bodyBytes (ch :: rest) = text at hpos hrest hle htake ⊢
  have hne : text ≠ [] := List.ne_nil_of_length_pos hpos
  have hmark := takeBody_marks hmarks hopens text
  split
  · next hzero =>
    -- the whole body is there
    have hlength : text.length = s.parser.contentLength := by
      change s.parser.contentLength - text.length = 0 at hzero
      omega
    have hbody : (pendingText pending ++ text.dropLast) ++ [text.getLastD ch] =
        pendingText pending ++ text := by
      rw [List.append_assoc, List.getLastD_eq_getLast?, List.getLast?_eq_some_getLast hne,
        Option.getD_some, List.dropLast_append_getLast hne]
    have hpending := pass_marks (s := (s.takeBody text).setState .messageDone) hmark text.dropLast
    have hset : (((s.takeBody text).setState .messageDone).pass text.dropLast).marks .body =
        some (pendingText pending ++ text.dropLast) := by
      rw [hpending]
      rfl
    have hnone : Function.update (((s.takeBody text).setState .messageDone).pass
        text.dropLast).marks .body none = marksOf none := by
      rw [hpending]
      exact update_marksOf .body _
    have hsub : s.parser.contentLength - text.length = 0 := by omega
    let t : Execution :=
      ⟨{ s.parser with contentLength := 0, state := s.parser.newMessage },
        s.p + text.dropLast.length, marksOf none⟩
    refine ⟨[.body (pendingText pending ++ text), .messageComplete],
      .next (t.pass [text.getLastD ch]) (text.length - 1), ?_, ?_⟩
    · unfold endBody
      dsimp only
      rw [record_callbackData
        (s := ((s.takeBody text).setState .messageDone).pass text.dropLast) h.ok
        hset, hbody, hnone]
      unfold messageDone completeMessage
      rw [record_callbackNotify, Calls.record_done]
      · simp only [pass, takeBody, setState, mark, hsub]
        rfl
      · exact h.ok
    · refine ⟨HttpParser.bodyBytes text ++ [.messageComplete], ?_, ?_⟩
      · rw [htake]
        exact HttpParser.reads_bodyIdentity_all hstate hne hlength
      · rw [opened_eq (s := t.pass [text.getLastD ch])
          (pass_marks (show t.marks = marksOf none from rfl) _)]
        exact HttpParser.sameTexts_pending (p := s.parser) hopens hne [.messageComplete]
  · next hzero =>
    have hlt : text.length < s.parser.contentLength := by
      change ¬s.parser.contentLength - text.length = 0 at hzero
      omega
    refine ⟨[], _, Calls.record_done _ _, HttpParser.bodyBytes text, ?_, ?_⟩
    · rw [htake]
      exact HttpParser.reads_body (Or.inl hstate) hlt
    · rw [opened_eq (s := (s.takeBody text).pass text) (pass_marks hmark text)]
      have hsame := HttpParser.sameTexts_pending (p := s.parser) hopens hne []
      rwa [List.append_nil] at hsame

/-- `s_chunk_data`. -/
theorem covers_chunkData (h : s.parser.SoundAt 1) (hstate : s.parser.state = .chunkData)
    (hmarks : s.marks = marksOf pending) (hopens : s.parser.state.Opens pending) (rest : Bytes) :
    ∃ cs after, (s.chunkData ch rest).record 0 = some (cs, after) ∧
      Covers (pendingCallback s.parser pending) s.parser s.p (ch :: rest) cs after := by
  have hin : s.parser.flags.chunked = true ∧ s.parser.contentLength ≠ 0 ∧
      s.parser.contentLength < ullongMax := by
    simpa only [HttpParser.InState, hstate] using h.inState
  rw [hstate] at hopens
  obtain ⟨hpos, hrest, hle⟩ := @length_bodyBytes s ch rest hin.2.1
  have htake := take_bodyBytes s ch rest hpos
  unfold chunkData
  rw [if_pos ⟨hin.1, hin.2.1, hin.2.2.ne⟩]
  dsimp only
  generalize s.bodyBytes (ch :: rest) = text at hpos hrest hle htake ⊢
  have hne : text ≠ [] := List.ne_nil_of_length_pos hpos
  have hmark := takeBody_marks hmarks hopens text
  have hsame := HttpParser.sameTexts_pending (p := s.parser) hopens hne []
  rw [List.append_nil] at hsame
  refine ⟨[], _, Calls.record_done _ _, HttpParser.bodyBytes text, ?_, ?_⟩
  · rw [htake]
    split
    · next hzero =>
      have hlength : text.length = s.parser.contentLength := by
        change s.parser.contentLength - text.length = 0 at hzero
        omega
      have hsub : s.parser.contentLength - text.length = 0 := hzero
      have hreads := HttpParser.reads_chunkData_all hstate hne hlength
      rwa [← hsub] at hreads
    · next hzero =>
      have hlt : text.length < s.parser.contentLength := by
        change ¬s.parser.contentLength - text.length = 0 at hzero
        omega
      exact HttpParser.reads_body (Or.inr hstate) hlt
  · split
    · rw [opened_eq (s := ((s.takeBody text).setState .chunkDataAlmostDone).pass text)
        (pass_marks hmark text)]
      exact hsame
    · rw [opened_eq (s := (s.takeBody text).pass text) (pass_marks hmark text)]
      exact hsame

/-- **One byte, or the bytes of a body.** -/
theorem covers_parseByte (h : s.parser.Sound) (hmarks : s.marks = marksOf pending)
    (hopens : s.parser.state.Opens pending) (rest : Bytes) :
    ∃ cs after, (s.parseByte ch rest).record 0 = some (cs, after) ∧
      after.Good s.p (ch :: rest).length ∧
      Covers (pendingCallback s.parser pending) s.parser s.p (ch :: rest) cs after := by
  have hsafe : (s.parseByte ch rest).Safe s.p (ch :: rest).length := safe_parseByte h hmarks hopens
  obtain ⟨cs, after, hrecord, hgood⟩ : ∃ cs after, (s.parseByte ch rest).record 0 =
      some (cs, after) ∧ after.Good s.p (ch :: rest).length :=
    hsafe.exists_record fun _ hstops => hstops.1 rfl
  suffices hcovers : ∃ cs after, (s.parseByte ch rest).record 0 = some (cs, after) ∧
      Covers (pendingCallback s.parser pending) s.parser s.p (ch :: rest) cs after by
    obtain ⟨cs', after', hrecord', hcovers⟩ := hcovers
    obtain ⟨rfl, rfl⟩ := Prod.mk.inj (Option.some.inj (hrecord.symm.trans hrecord'))
    exact ⟨cs, after, hrecord, hgood, hcovers⟩
  unfold parseByte
  split
  · next hheader =>
    have hbody : s.parser.state ≠ .bodyIdentity := fun heq => by
      simp [heq, ParserState.parsingHeader] at hheader
    have hchunk : s.parser.state ≠ .chunkData := fun heq => by
      simp [heq, ParserState.parsingHeader] at hheader
    refine Realizes.covers ?_ rest
    unfold HttpParser.step
    rw [if_pos hheader]
    dsimp only
    split
    · exact realizes_fail (s := { s with parser.nread := s.parser.nread + 1 }) _ _ (by decide)
    · next hle =>
      have hread : s.parser.nread + 1 ≤ httpMaxHeaderSize := Nat.le_of_not_lt hle
      exact realizes_switchState (s := { s with parser.nread := s.parser.nread + 1 })
        (sound_nread h hread) hmarks hopens hbody hchunk rest
  · next hheader =>
    have hheader : s.parser.state.parsingHeader = false := Bool.eq_false_of_not_eq_true hheader
    have hsound := soundAt_of_not_parsingHeader h hheader
    by_cases hbody : s.parser.state = .bodyIdentity
    · have hcovers := @covers_bodyIdentity s pending ch hsound hbody hmarks hopens rest
      unfold switchState
      rw [hbody]
      exact hcovers
    · by_cases hchunk : s.parser.state = .chunkData
      · have hcovers := @covers_chunkData s pending ch hsound hchunk hmarks hopens rest
        unfold switchState
        rw [hchunk]
        exact hcovers
      · refine Realizes.covers ?_ rest
        rw [HttpParser.step_of_not_parsingHeader hheader]
        exact realizes_switchState hsound hmarks hopens hbody hchunk rest

/-- The callbacks behind the last byte. -/
theorem record_flushMarks (hok : s.parser.httpErrno = .ok) (hmarks : s.marks = marksOf pending) :
    s.flushMarks.record 0 = some ((pendingCallback s.parser pending).toList,
      .stop { s with marks := marksOf none } s.p) := by
  obtain ⟨parser, pos, marks⟩ := s
  dsimp only at hok hmarks
  subst hmarks
  have hcount := countP_marksOf pending
  unfold flushMarks
  dsimp only
  rw [if_pos hcount]
  cases pending with
  | none => simp [callbackData, hok, marksOf, leave, pendingCallback]
  | some pending =>
    obtain ⟨m, text⟩ := pending
    cases m <;> simp [callbackData, hok, marksOf, leave, pendingCallback, ParserMark.callback_eq,
      update_marksOf]

end Execution

/-- What a buffer leaves behind is what its bytes do one by one, and a text that is left open has
been reported up to here. -/
structure Agrees (before : Option ParserCallback) (p : HttpParser) (data : Bytes)
    (cs : List ParserCallback) (p' : HttpParser) (parsed : ℕ) : Prop where
  /-- The parser is the one behind the bytes. -/
  parser_eq : (p.steps data).parser = p'
  /-- The number is that of the bytes that were parsed. -/
  parsed_eq : (p.steps data).parsed = parsed
  /-- The callbacks are those of the bytes, but a text that ends with an error may be left. -/
  callbacks : ∃ left : Option ParserCallback,
    SameTexts (before.toList ++ (p.steps data).callbacks) (cs ++ left.toList) ∧
      (p'.httpErrno = .ok → left = none)
  /-- What is open has been reported. -/
  pending : p'.httpErrno = .ok → ∃ front pending,
    cs = front ++ (pendingCallback p' pending).toList ∧ p'.state.Opens pending
  /-- The parser is as it has to be. -/
  settled : p'.Settled
  /-- It has gone over all bytes unless there is an error or an upgrade. -/
  reads : p'.httpErrno = .ok → p'.upgrade = true ∨ ∃ ev, p.Reads data ev p'

namespace Execution

/-- **Every run.** -/
theorem agrees_loop {s : Execution} {pending : Option (ParserMark × Bytes)} {skip : ℕ}
    {data : Bytes}
    (h : s.parser.Sound) (hmarks : s.marks = marksOf pending)
    (hopens : s.parser.state.Opens pending) (hskip : skip ≤ data.length) :
    ∃ cs t parsed, (loop skip data s).record 0 = some (cs, .stop t (s.p + parsed)) ∧
      Agrees (pendingCallback s.parser pending) s.parser (data.drop skip) cs t.parser parsed := by
  induction skip, data, s using loop.induct generalizing pending with
  | case1 skip s =>
    have hrecord := record_flushMarks h.ok hmarks
    refine ⟨(pendingCallback s.parser pending).toList, { s with marks := marksOf none }, 0,
      by rw [loop, hrecord, Nat.add_zero], ?_⟩
    rw [List.drop_nil]
    refine ⟨rfl, rfl, ⟨none, ?_, fun _ => rfl⟩, fun _ => ⟨[], pending, rfl, hopens⟩, h.settled,
      fun _ => Or.inr ⟨[], .nil _⟩⟩
    exact .refl _
  | case2 skip ch rest s ih =>
    have hle : skip ≤ rest.length := by simpa using hskip
    obtain ⟨cs, t, parsed, hrecord, hagrees⟩ := ih h hmarks hopens hle
    refine ⟨cs, t, parsed, by rw [loop, hrecord], ?_⟩
    rwa [List.drop_succ_cons]
  | case3 ch rest s ih =>
    obtain ⟨cs, after, hrecord, hgood, hcovers⟩ := covers_parseByte h hmarks hopens rest
    rw [List.drop_zero]
    cases after with
    | stop t parsed =>
      obtain ⟨hparser, rfl, left, hsame, hok⟩ := hcovers
      refine ⟨cs, t, _, ?_, hparser, rfl, ⟨left, hsame, fun h => (hok h).1⟩, fun h => ?_, hgood.1,
        fun h => Or.inl (hok h).2.2⟩
      · rw [loop, Calls.record_bind, hrecord, Option.bind_some]
        simp [leave]
      · exact ⟨cs, none, (List.append_nil cs).symm, (hok h).2.1⟩
    | next t skip =>
      obtain ⟨ht, hp, hlt, pending', hmarks', hopens'⟩ := hgood
      obtain ⟨ev, hreads, hsame⟩ := hcovers
      have hle : skip ≤ rest.length := by
        rw [List.length_cons] at hlt
        omega
      obtain ⟨cs', u, parsed, hrecord', hagrees⟩ := ih t skip ht hmarks' hopens' hle
      have hsplit : ch :: rest = (ch :: rest).take (skip + 1) ++ rest.drop skip := by
        conv_lhs => rw [← List.take_append_drop (skip + 1) (ch :: rest), List.drop_succ_cons]
      have hlength : ((ch :: rest).take (skip + 1)).length = skip + 1 := by
        rw [List.length_take]
        omega
      have hsteps := hreads.steps_append (rest.drop skip)
      rw [← hsplit, hlength] at hsteps
      refine ⟨cs ++ cs', u, skip + 1 + parsed, ?_, ?_⟩
      · have hend : t.p + parsed = s.p + (skip + 1 + parsed) := by omega
        rw [loop, Calls.record_bind, hrecord, Option.bind_some]
        dsimp only
        rw [hrecord', Option.map_some, hend]
      · obtain ⟨left, hleft, hnone⟩ := hagrees.callbacks
        rw [opened_eq hmarks'] at hsame
        refine ⟨?_, ?_, ⟨left, ?_, hnone⟩, fun hok => ?_, hagrees.settled, fun hok => ?_⟩
        · rw [hsteps]
          exact hagrees.parser_eq
        · rw [hsteps]
          dsimp only
          rw [hagrees.parsed_eq]
        · rw [hsteps]
          dsimp only
          rw [← List.append_assoc, List.append_assoc cs]
          refine (hsame.append_left _).trans ?_
          rw [List.append_assoc]
          exact hleft.append_right cs
        · obtain ⟨front, pending'', rfl, hopens''⟩ := hagrees.pending hok
          exact ⟨cs ++ front, pending'', (List.append_assoc _ _ _).symm, hopens''⟩
        · refine (hagrees.reads hok).imp_right ?_
          rintro ⟨ev', hreads'⟩
          refine ⟨ev ++ ev', ?_⟩
          rw [hsplit]
          exact hreads.append hreads'

end Execution

/-- The callback that goes on with the text that the last buffer has left open. -/
def HttpParser.opening (p : HttpParser) : Option ParserCallback :=
  pendingCallback p (Execution.openPending p)

/-- **One call.** Up to the pieces of the texts, `http_parser_execute` does what the bytes do one
by one. -/
theorem agrees_httpParserExecute {p : HttpParser} (h : p.Sound) {data : Bytes} (hne : data ≠ []) :
    ∃ cs p' parsed, (httpParserExecute p data).record 0 = some (cs, p', parsed) ∧
      Agrees p.opening p data cs p' parsed := by
  have hmarks := Execution.openMarks_eq p
  have hopens := Execution.opens_openPending h
  obtain ⟨cs, t, parsed, hrecord, hagrees⟩ := Execution.agrees_loop
    (s := ⟨p, 0, Execution.openMarks p⟩) h hmarks hopens (Nat.zero_le data.length)
  refine ⟨cs, t.parser, parsed, ?_, hagrees⟩
  unfold httpParserExecute
  rw [if_neg (not_not.mpr h.ok), if_neg hne, Calls.record_bind, hrecord, Option.bind_some]
  simp

end Khttp
