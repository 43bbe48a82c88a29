import Khttp.ParserRefinement

/-!
# Streams of buffers

`http_parser_execute` for the buffers that the bytes of a connection come in. How the bytes are
spread over the buffers does not matter.
-/

namespace Khttp

open Lib

/-- A text that goes on is the one that was open. -/
theorem sameTexts_opening {p : HttpParser} {pending : Option (ParserMark × Bytes)}
    (hopens : p.state.Opens pending) (front : List ParserCallback) :
    SameTexts (front ++ (pendingCallback p pending).toList ++ p.opening.toList)
      (front ++ (pendingCallback p pending).toList) := by
  have hsame (m : ParserMark) (text : Bytes) :
      SameTexts (front ++ [(m.kind p).callback text] ++ [(m.kind p).callback []])
        (front ++ [(m.kind p).callback text]) := by
    have hjoin := (m.kind p).sameTexts text [] []
    rw [List.append_nil] at hjoin
    rw [List.append_assoc]
    exact hjoin.append_right front
  unfold HttpParser.opening Execution.openPending
  unfold ParserState.Opens at hopens
  cases hstate : p.state with
  | headerField =>
    simp only [hstate] at hopens
    obtain ⟨text, rfl⟩ := hopens
    exact hsame .headerField text
  | headerValue =>
    simp only [hstate] at hopens
    obtain ⟨text, rfl⟩ := hopens
    exact hsame .headerValue text
  | reqUrl u =>
    simp only [hstate] at hopens
    cases u with
    | spacesBeforeUrl | dead => simpa [pendingCallback] using SameTexts.refl _
    | _ =>
      obtain ⟨text, rfl⟩ := hopens
      exact hsame .url text
  | _ => simpa [pendingCallback] using SameTexts.refl _

/-- `http_parser_execute` for one buffer after another, as long as there is neither an error nor
another protocol, with the number of the bytes that were parsed. -/
def HttpParser.executeStream (p : HttpParser) :
    List Bytes → Calls ParserCallback ℤ (HttpParser × ℕ)
  | [] => .done (p, 0)
  | data :: buffers => (httpParserExecute p data).bind fun (p, parsed) =>
      if p.upgrade ∨ parsed ≠ data.length ∨ p.httpErrno ≠ .ok then .done (p, parsed)
      else (p.executeStream buffers).bind fun (p, rest) => .done (p, parsed + rest)

/-- Neither an error nor another protocol. -/
def HttpParser.Clear (p : HttpParser) : Prop := p.httpErrno = .ok ∧ p.upgrade = false

/-- A byte behind which the parser goes on leaves neither an error nor another protocol. -/
def ByteStep.KeepsClear : ByteStep → Prop
  | .next _ p => p.Clear
  | .stop _ _ => True

section Clear

variable {p p' : HttpParser} {ch : UInt8}

/-- A plain case is about neither. -/
theorem plainCase_upgrade (h : p.plainCase ch = some p') : p'.upgrade = p.upgrade := by
  unfold HttpParser.plainCase at h
  split at h
  case h_2 =>
    unfold HttpParser.reqMethod at h
    split at h
    · obtain rfl := Option.some.inj h
      rfl
    · obtain ⟨matcher, _, rfl⟩ := Option.map_eq_some_iff.mp h
      split_ifs
      · rfl
      · rfl
      · split <;> rfl
  case h_15 =>
    unfold HttpParser.chunkSizeStart at h
    obtain ⟨_, hsome⟩ := Option.ite_none_right_eq_some.mp h
    obtain rfl := Option.some.inj hsome
    split <;> rfl
  case h_16 =>
    obtain ⟨_, hsome⟩ := Option.ite_none_right_eq_some.mp h
    obtain rfl := Option.some.inj hsome
    unfold HttpParser.chunkSize
    split
    · rfl
    · split <;> split_ifs <;> rfl
  case h_17 | h_18 | h_19 =>
    obtain ⟨_, hsome⟩ := Option.ite_none_right_eq_some.mp h
    obtain rfl := Option.some.inj hsome
    try unfold HttpParser.chunkSizeAlmostDone
    try dsimp only
    split_ifs <;> rfl
  case h_20 => simp at h
  all_goals
    obtain rfl := Option.some.inj h
    try simp only [HttpParser.strictCheck, HttpParser.versionDigit]
    split_ifs <;> rfl

/-- A parser that may have an error. -/
theorem keepsClear_accept (h : p.upgrade = false) (cbs : List ParserCallback) :
    (p.accept cbs).KeepsClear := by
  unfold HttpParser.accept
  split
  · next hok => exact ⟨hok, h⟩
  · trivial

/-- A case that does not leave the assertions behind. -/
theorem keepsClear_acceptCase {result : Option HttpParser}
    (h : ∀ p', result = some p' → p'.upgrade = false) (cbs : List ParserCallback) :
    (p.acceptCase result cbs).KeepsClear := by
  cases result with
  | none => trivial
  | some p' => exact keepsClear_accept (h p' rfl) cbs

/-- A callback in front is about neither. -/
theorem ByteStep.KeepsClear.after {r : ByteStep} (h : r.KeepsClear) (cb : ParserCallback) :
    (r.after cb).KeepsClear := by
  cases r with
  | next => exact h
  | stop => trivial

/-- A character of the target. -/
theorem keepsClear_targetStep (h : p.Clear) (from' : UrlState) :
    (p.targetStep ch from').KeepsClear := by
  unfold HttpParser.targetStep
  split
  · trivial
  · exact h

/-- The end of the header. -/
theorem keepsClear_afterHeadersStep (h : p.httpErrno = .ok) : p.afterHeadersStep.KeepsClear := by
  unfold HttpParser.afterHeadersStep
  split
  · trivial
  · next hupgrade =>
    have hclear : p.Clear := ⟨h, Bool.eq_false_of_not_eq_true hupgrade⟩
    split_ifs <;> exact hclear

/-- `s_headers_almost_done`. -/
theorem keepsClear_headersAlmostDoneStep (h : p.Clear) :
    (p.headersAlmostDoneStep ch).KeepsClear := by
  unfold HttpParser.headersAlmostDoneStep HttpParser.headersDoneStep
  split
  · split
    · exact h
    · refine ByteStep.KeepsClear.after ?_ _
      exact keepsClear_afterHeadersStep h.1
  · trivial

/-- `s_header_field_start`. -/
theorem keepsClear_headerFieldStartStep (h : p.Clear) : (p.headerFieldStartStep ch).KeepsClear := by
  unfold HttpParser.headerFieldStartStep
  split
  · exact h
  · split
    · exact keepsClear_headersAlmostDoneStep h
    · split
      · trivial
      · exact h

/-- `s_header_value_start`. -/
theorem keepsClear_headerValueStartStep (h : p.Clear) : (p.headerValueStartStep ch).KeepsClear :=
  keepsClear_accept ((HttpParser.upgrade_eq (HttpParser.startValue_known p ch)).trans h.2) _

/-- The byte in the state of the parser. -/
theorem keepsClear_stateStep (h : p.Clear) : (p.stateStep ch).KeepsClear := by
  unfold HttpParser.stateStep
  split
  case h_1 =>
    unfold HttpParser.startReqStep
    split
    · exact h
    · dsimp only
      split
      · trivial
      · split
        · trivial
        · exact h
  case h_2 u _ =>
    unfold HttpParser.reqUrlStep
    split
    · trivial
    · split
      · exact h
      · exact keepsClear_targetStep h _
    all_goals
      split_ifs <;> first | trivial | exact h | exact keepsClear_targetStep h _
  case h_3 => exact keepsClear_headerFieldStartStep h
  case h_4 =>
    unfold HttpParser.headerFieldStep
    split
    · exact keepsClear_acceptCase
        (fun p' hp' => (HttpParser.upgrade_eq (HttpParser.matchName_known hp')).trans h.2) _
    · split_ifs <;> first | exact h | trivial
  case h_5 =>
    unfold HttpParser.headerValueDiscardWsStep
    split_ifs <;> first | exact h | exact keepsClear_headerValueStartStep h
  case h_6 =>
    unfold HttpParser.headerValueDiscardLwsStep
    split
    · exact h
    · refine ByteStep.KeepsClear.after ?_ _
      exact keepsClear_headerFieldStartStep h
  case h_7 => exact keepsClear_headerValueStartStep h
  case h_8 =>
    unfold HttpParser.headerValueStep
    split
    · exact h
    · split
      · refine keepsClear_acceptCase (fun p' hp' => ?_) _
        exact (plainCase_upgrade hp').trans h.2
      · exact keepsClear_acceptCase
          (fun p' hp' => (HttpParser.upgrade_eq (HttpParser.matchValue_known hp')).trans h.2) _
  case h_9 =>
    unfold HttpParser.headerValueLwsStep
    split
    · exact keepsClear_headerValueStartStep h
    · refine keepsClear_headerFieldStartStep ?_
      unfold HttpParser.endHeader
      split <;> exact h
  case h_10 => exact keepsClear_headersAlmostDoneStep h
  case h_11 =>
    unfold HttpParser.headersDoneStep
    split
    · exact keepsClear_afterHeadersStep h.1
    · trivial
  case h_12 =>
    unfold HttpParser.bodyIdentityStep
    dsimp only
    split <;> exact h
  case h_13 =>
    unfold HttpParser.chunkDataStep
    dsimp only
    split <;> exact h
  case h_14 =>
    unfold HttpParser.chunkDataAlmostDoneStep
    split
    · exact h
    · trivial
  case h_15 => exact h
  case h_16 => exact keepsClear_acceptCase (fun p' hp' => (plainCase_upgrade hp').trans h.2) _

/-- **One byte.** Only at the end of a header there can be an upgrade,
and the parser stops there. -/
theorem keepsClear_step (h : p.Clear) : (p.step ch).KeepsClear := by
  unfold HttpParser.step
  split
  · dsimp only
    split
    · trivial
    · exact keepsClear_stateStep h
  · exact keepsClear_stateStep h

/-- Some bytes. -/
theorem HttpParser.Reads.clear {bytes : Bytes} {cbs : List ParserCallback}
    (h : p.Reads bytes cbs p') (hclear : p.Clear) : p'.Clear := by
  induction h with
  | nil => exact hclear
  | @cons p _ _ ch _ _ _ hstep _ ih =>
    have hkeeps := @keepsClear_step p ch hclear
    rw [hstep] at hkeeps
    exact ih hkeeps

end Clear

/-- The parser goes over all bytes, or what follows them does not matter. -/
theorem HttpParser.reads_or_stops (p : HttpParser) (data : Bytes) :
    (∃ ev p', p.Reads data ev p') ∨ ∀ rest, p.steps (data ++ rest) = p.steps data := by
  induction data generalizing p with
  | nil => exact Or.inl ⟨[], p, .nil p⟩
  | cons ch data ih =>
    cases hstep : p.step ch with
    | next cbs p' =>
      rcases ih p' with ⟨ev, p'', hreads⟩ | hstops
      · exact Or.inl ⟨cbs ++ ev, p'', .cons hstep hreads⟩
      · refine Or.inr fun rest => ?_
        rw [List.cons_append, steps, steps, hstep]
        dsimp only
        rw [hstops rest]
    | stop cbs p' =>
      refine Or.inr fun rest => ?_
      rw [List.cons_append, steps, steps, hstep]

/-- **Every stream.** However its bytes are spread over buffers, they are parsed as they are one
by one, up to the pieces of the texts; of a text that ends with an error a last piece may be
missing. -/
theorem executeStream_agrees {p : HttpParser} (h : p.Sound) (hupgrade : p.upgrade = false)
    {buffers : List Bytes} (hne : ∀ data ∈ buffers, data ≠ []) {front : List ParserCallback}
    (hfront : SameTexts (front ++ p.opening.toList) front) :
    ∃ cs, (p.executeStream buffers).record 0 =
        some (cs, (p.steps buffers.flatten).parser, (p.steps buffers.flatten).parsed) ∧
      ∃ left : Option ParserCallback,
        SameTexts (front ++ (p.steps buffers.flatten).callbacks) (front ++ cs ++ left.toList) ∧
        ((p.steps buffers.flatten).parser.httpErrno = .ok → left = none) := by
  induction buffers generalizing p front with
  | nil =>
    refine ⟨[], rfl, none, ?_, fun _ => rfl⟩
    simpa [HttpParser.steps] using SameTexts.refl _
  | cons data buffers ih =>
    obtain ⟨cs, p', parsed, hrecord, hagrees⟩ :=
      agrees_httpParserExecute h (hne data List.mem_cons_self)
    obtain ⟨left, hsame, hleft⟩ := hagrees.callbacks
    have hhere : SameTexts (front ++ (p.steps data).callbacks) (front ++ cs ++ left.toList) := by
      rw [List.append_assoc]
      refine ((hfront.symm).append_left _).trans ?_
      rw [List.append_assoc]
      exact hsame.append_right front
    rw [HttpParser.executeStream, Calls.record_bind, hrecord, Option.bind_some]
    dsimp only
    rw [List.flatten_cons]
    by_cases hall : ∃ ev p', p.Reads data ev p'
    · -- all bytes of the buffer are parsed
      obtain ⟨ev, p'', hreads⟩ := hall
      have hdata := hreads.steps_eq
      have hp' : p'' = p' := by simpa [hdata] using hagrees.parser_eq
      have hparsed : data.length = parsed := by simpa [hdata] using hagrees.parsed_eq
      subst hp'
      have hclear := hreads.clear ⟨h.ok, hupgrade⟩
      obtain ⟨cs₀, pending, hcs, hopens⟩ := hagrees.pending hclear.1
      have hopening : SameTexts (front ++ cs ++ p''.opening.toList) (front ++ cs) := by
        rw [hcs, ← List.append_assoc front]
        exact sameTexts_opening hopens (front ++ cs₀)
      obtain ⟨cs', hrecord', left', hsame', hleft'⟩ :=
        ih (hagrees.settled hclear.1) hclear.2 (fun d hd => hne d (List.mem_cons_of_mem _ hd))
          hopening
      have hgoes : ¬(p''.upgrade = true ∨ parsed ≠ data.length ∨ p''.httpErrno ≠ .ok) := by
        simp [hclear.1, hclear.2, hparsed]
      have hsteps := hreads.steps_append buffers.flatten
      rw [if_neg hgoes, hsteps]
      refine ⟨cs ++ cs', ?_, left', ?_, hleft'⟩
      · rw [Calls.record_bind, hrecord', Option.bind_some]
        simp [hparsed]
      · obtain rfl := hleft hclear.1
        rw [hdata, Option.toList_none, List.append_nil] at hhere
        rw [← List.append_assoc, ← List.append_assoc]
        exact (hhere.append_left _).trans hsame'
    · -- the bytes behind the buffer do not matter
      have hstops := (p.reads_or_stops data).resolve_left hall buffers.flatten
      have hends : p'.upgrade = true ∨ parsed ≠ data.length ∨ p'.httpErrno ≠ .ok := by
        by_cases hok : p'.httpErrno = .ok
        · have hreads := hagrees.reads hok
          refine Or.inl (hreads.resolve_right ?_)
          rintro ⟨ev, hev⟩
          exact hall ⟨ev, p', hev⟩
        · exact Or.inr (Or.inr hok)
      rw [if_pos hends, hstops, hagrees.parser_eq, hagrees.parsed_eq]
      exact ⟨cs, by simp, left, hhere, hleft⟩

/-- **Buffers do not matter.** Two ways to spread a stream over buffers that are not empty give
the same parser, the same number of parsed bytes and the same callbacks up to the pieces of the
texts; of a text that ends with an error a last piece may be missing. -/
theorem executeStream_flatten {buffers buffers' : List Bytes} (hne : ∀ data ∈ buffers, data ≠ [])
    (hne' : ∀ data ∈ buffers', data ≠ []) (hflatten : buffers.flatten = buffers'.flatten) :
    ∃ cs cs' p parsed, (HttpParser.init.executeStream buffers).record 0 = some (cs, p, parsed) ∧
      (HttpParser.init.executeStream buffers').record 0 = some (cs', p, parsed) ∧
      ∃ left left' : Option ParserCallback, SameTexts (cs ++ left.toList) (cs' ++ left'.toList) ∧
        (p.httpErrno = .ok → left = none ∧ left' = none) := by
  have hinit : SameTexts ([] ++ HttpParser.init.opening.toList) [] := .refl []
  obtain ⟨cs, hcs, left, hsame, hleft⟩ :=
    executeStream_agrees HttpParser.sound_init rfl hne hinit
  obtain ⟨cs', hcs', left', hsame', hleft'⟩ :=
    executeStream_agrees HttpParser.sound_init rfl hne' hinit
  rw [← hflatten] at hcs' hsame' hleft'
  exact ⟨cs, cs', _, _, hcs, hcs', left, left', hsame.symm.trans hsame',
    fun hok => ⟨hleft hok, hleft' hok⟩⟩

/-- A request whose method comes in a buffer of its own. -/
theorem executeStream_flatten_method :
    ∃ cs cs' p parsed,
      (HttpParser.init.executeStream [ascii "GET / HTTP/1.1\r\n\r\n"]).record 0 =
        some (cs, p, parsed) ∧
      (HttpParser.init.executeStream [ascii "GET", ascii " / HTTP/1.1\r\n\r\n"]).record 0 =
        some (cs', p, parsed) ∧
      ∃ left left' : Option ParserCallback, SameTexts (cs ++ left.toList) (cs' ++ left'.toList) ∧
        (p.httpErrno = .ok → left = none ∧ left' = none) :=
  executeStream_flatten (by decide) (by decide) (by decide)

end Khttp
