import Khttp.ParserStreams
import Khttp.Messages

/-!
# The order of the callbacks

The callbacks of the parser follow the order of a message: its target, its header lines, its body
and the header lines behind a chunked body. The order is a machine over the callbacks, and the
state of the parser says which of its states have been reached.
-/

namespace Khttp

open Lib

/-- What has been reported of a message. -/
inductive Reported where
  /-- Nothing. -/
  | nothing
  /-- Its begin. -/
  | begun
  /-- A part of its target, with its method. -/
  | target (method : Bytes)
  /-- A part of a name, with the version of the message. -/
  | field (version : ℕ × ℕ)
  /-- A part of a value. -/
  | value (version : ℕ × ℕ)
  /-- The end of its header, with the version where there is a header line. -/
  | header (version : Option (ℕ × ℕ))
  /-- A part of its body. -/
  | body (version : Option (ℕ × ℕ))
  /-- A part of a name behind its body. -/
  | footer (version : ℕ × ℕ)
  /-- A part of a value behind its body. -/
  | footerValue (version : ℕ × ℕ)
  deriving DecidableEq, Repr

namespace Reported

/-- The order of the callbacks. -/
def report : Reported → ParserCallback → Option Reported
  | .nothing, .messageBegin => some .begun
  | .begun, .url method _ => some (.target method)
  | .target method, .url method' _ => if method' = method then some (.target method) else none
  | .target _, .headerField major minor _ => some (.field (major, minor))
  | .field version, .headerField major minor _ | .value version, .headerField major minor _ =>
    if (major, minor) = version then some (.field version) else none
  | .field version, .headerValue _ | .value version, .headerValue _ => some (.value version)
  | .target _, .headersComplete => some (.header none)
  | .field version, .headersComplete | .value version, .headersComplete =>
    some (.header (some version))
  | .header version, .body _ | .body version, .body _ => some (.body version)
  | .header (some version), .headerField major minor _
  | .body (some version), .headerField major minor _
  | .footer version, .headerField major minor _
  | .footerValue version, .headerField major minor _ =>
    if (major, minor) = version then some (.footer version) else none
  | .footer version, .headerValue _ | .footerValue version, .headerValue _ =>
    some (.footerValue version)
  | .header _, .messageComplete | .body _, .messageComplete | .footer _, .messageComplete
  | .footerValue _, .messageComplete => some .nothing
  | _, _ => none

/-- The order of some callbacks. -/
def reportAll (g : Reported) (cbs : List ParserCallback) : Option Reported := cbs.foldlM report g

@[simp] theorem reportAll_nil (g : Reported) : g.reportAll [] = some g := rfl

@[simp] theorem reportAll_cons (g : Reported) (cb : ParserCallback) (cbs : List ParserCallback) :
    g.reportAll (cb :: cbs) = (g.report cb).bind (reportAll · cbs) := by
  rw [reportAll, List.foldlM_cons]
  rfl

theorem reportAll_append (g : Reported) (cbs cbs' : List ParserCallback) :
    g.reportAll (cbs ++ cbs') = (g.reportAll cbs).bind (reportAll · cbs') := by
  rw [reportAll, List.foldlM_append]
  rfl

/-- Two pieces of a text are reported as the text is. -/
theorem report_join {a b c : ParserCallback} (h : a.join b = some c) (g : Reported) :
    (g.report a).bind (·.report b) = g.report c := by
  obtain ⟨k, t, u, ha, hb, rfl⟩ := ParserCallback.exists_of_join h
  rw [ParserCallback.eq_of_text ha, ParserCallback.eq_of_text hb]
  cases k with
  | url method =>
    cases g with
    | begun => simp [TextKind.callback, report]
    | target method' => by_cases heq : method = method' <;> simp [TextKind.callback, report, heq]
    | _ => rfl
  | headerField major minor =>
    cases g with
    | target => simp [TextKind.callback, report]
    | field version | value version | footer version | footerValue version =>
      by_cases heq : (major, minor) = version <;> simp [TextKind.callback, report, heq]
    | header version | body version =>
      cases version with
      | none => rfl
      | some version =>
        by_cases heq : (major, minor) = version <;> simp [TextKind.callback, report, heq]
    | _ => rfl
  | headerValue => cases g <;> simp [TextKind.callback, report]
  | body => cases g <;> simp [TextKind.callback, report]

/-- The pieces of the texts do not matter to the order. -/
theorem reportAll_coalesce (g : Reported) (cbs : List ParserCallback) :
    g.reportAll (coalesce ParserCallback.join cbs) = g.reportAll cbs := by
  induction cbs generalizing g with
  | nil => rw [coalesce_nil]
  | cons cb cbs ih =>
    rw [coalesce_cons, reportAll_cons, ← Option.bind_congr fun g' _ => ih g']
    cases coalesce ParserCallback.join cbs with
    | nil => rw [joinHead, reportAll_cons]
    | cons cb' rest =>
      rw [joinHead]
      cases hjoin : cb.join cb' with
      | none =>
        dsimp only
        rw [reportAll_cons]
      | some joined =>
        dsimp only
        rw [reportAll_cons, ← report_join hjoin, Option.bind_assoc]
        simp

/-- Callbacks that are the same up to the pieces of the texts. -/
theorem reportAll_sameTexts {cbs cbs' : List ParserCallback} (h : SameTexts cbs cbs')
    (g : Reported) :
    g.reportAll cbs = g.reportAll cbs' := by
  rw [← reportAll_coalesce, h, reportAll_coalesce]

end Reported

namespace HttpParser

/-- `http_major` and `http_minor`. -/
def version (p : HttpParser) : ℕ × ℕ := (p.httpMajor, p.httpMinor)

/-- What has been reported behind a part of a name. -/
def atField (p : HttpParser) : Reported :=
  if p.flags.trailing then .footer p.version else .field p.version

/-- What has been reported behind a part of a value. -/
def atValue (p : HttpParser) : Reported :=
  if p.flags.trailing then .footerValue p.version else .value p.version

/-- What has been reported within a header line. -/
def InLine (p : HttpParser) (g : Reported) : Prop := g = p.atField ∨ g = p.atValue

/-- What has been reported in front of header lines. -/
def BeforeLines (p : HttpParser) (g : Reported) : Prop :=
  if p.flags.trailing then g = .header (some p.version) ∨ g = .body (some p.version)
  else (∃ method, g = .target method) ∧ p.flags.chunked = false

/-- What has been reported between header lines. -/
def BetweenLines (p : HttpParser) (g : Reported) : Prop := p.InLine g ∨ p.BeforeLines g

/-- What has been reported behind the header; a header line announces a chunked body. -/
def AfterHeader (p : HttpParser) (g : Reported) : Prop :=
  ∃ version, (g = .header version ∨ g = .body version) ∧
    (p.flags.chunked = true → version = some p.version)

/-- What has been reported in a state of the parser. -/
def Expects (p : HttpParser) (g : Reported) : Prop :=
  match p.state with
  | .dead | .startReq => g = .nothing
  | .reqMethod | .reqUrl .spacesBeforeUrl => g = .begun ∧ p.flags = .none
  | .reqUrl _ | .reqHttpStart | .reqHttpH | .reqHttpHT | .reqHttpHTT | .reqHttpHTTP
  | .reqFirstHttpMajor | .reqHttpMajor | .reqFirstHttpMinor | .reqHttpMinor
  | .reqLineAlmostDone => g = .target (httpMethodStr p.method) ∧ p.flags = .none
  | .headerFieldStart | .headersAlmostDone => p.BetweenLines g
  | .headerField | .headerValueDiscardWs | .headerValueDiscardWsAlmostDone
  | .headerValueDiscardLws | .headerValueStart | .headerValue | .headerValueLws
  | .headerAlmostDone => p.InLine g
  | .chunkSizeStart | .chunkSize | .chunkParameters | .chunkSizeAlmostDone | .chunkData
  | .chunkDataAlmostDone | .chunkDataDone =>
    g = .header (some p.version) ∨ g = .body (some p.version)
  | .headersDone | .bodyIdentity | .messageDone => p.AfterHeader g

end HttpParser

/-- The callbacks for a byte are in order, and the parser behind it expects what follows. -/
def ByteStep.Ordered (g : Reported) : ByteStep → Prop
  | .next cbs p => ∃ g', g.reportAll cbs = some g' ∧ p.Expects g'
  | .stop cbs _ => ∃ g', g.reportAll cbs = some g'

section Ordered

variable {p p' : HttpParser} {ch : UInt8} {g g' : Reported}

/-- Nothing is reported. -/
theorem ordered_skip (h : p.Expects g) : (ByteStep.next [] p).Ordered g := ⟨g, rfl, h⟩

/-- The parser stops without a callback. -/
theorem ordered_stop : (ByteStep.stop [] p).Ordered g := ⟨g, rfl⟩

/-- A callback in front. -/
theorem ByteStep.Ordered.after {r : ByteStep} {cb : ParserCallback} (hcb : g.report cb = some g')
    (h : r.Ordered g') : (r.after cb).Ordered g := by
  cases r with
  | next cbs p =>
    obtain ⟨g'', hg'', hexpects⟩ := h
    exact ⟨g'', by rw [Reported.reportAll_cons, hcb, Option.bind_some, hg''], hexpects⟩
  | stop cbs p =>
    obtain ⟨g'', hg''⟩ := h
    exact ⟨g'', by rw [Reported.reportAll_cons, hcb, Option.bind_some, hg'']⟩

/-- One callback. -/
theorem ordered_single {cb : ParserCallback} (hcb : g.report cb = some g') (h : p.Expects g') :
    (ByteStep.next [cb] p).Ordered g :=
  ByteStep.Ordered.after (r := .next [] p) hcb (ordered_skip h)

/-- A parser that may have an error. -/
theorem ordered_accept {cbs : List ParserCallback}
    (h : p.httpErrno = .ok → (ByteStep.next cbs p).Ordered g) : (p.accept cbs).Ordered g := by
  unfold HttpParser.accept
  split
  · next hok => exact h hok
  · exact ordered_stop

/-- A case that does not leave the assertions behind. -/
theorem ordered_acceptCase {result : Option HttpParser} {cbs : List ParserCallback}
    (h : ∀ p', result = some p' → p'.httpErrno = .ok → (ByteStep.next cbs p').Ordered g) :
    (p.acceptCase result cbs).Ordered g := by
  cases result with
  | none => exact ordered_stop
  | some p' => exact ordered_accept (h p' rfl)

/-- What a name or a value leaves as it is says what has been reported. -/
theorem inLine_of_known (hknown : p'.known = p.known) (h : p.InLine g) : p'.InLine g := by
  have htrailing : p'.flags.trailing = p.flags.trailing := congrArg Prod.fst hknown
  have hversion : p'.version = p.version := congrArg (fun k => (k.2.1, k.2.2.1)) hknown
  unfold HttpParser.InLine HttpParser.atField HttpParser.atValue
  rw [htrailing, hversion]
  exact h

/-- A piece of a name. -/
theorem report_field (h : p.BetweenLines g) (text : Bytes) :
    g.report (.headerField p.httpMajor p.httpMinor text) = some p.atField := by
  have hversion : (p.httpMajor, p.httpMinor) = p.version := rfl
  unfold HttpParser.atField
  rcases h with (rfl | rfl) | h
  · unfold HttpParser.atField
    split <;> exact if_pos hversion
  · unfold HttpParser.atValue
    split <;> exact if_pos hversion
  · unfold HttpParser.BeforeLines at h
    split at h
    · next htrailing =>
      rw [if_pos htrailing]
      rcases h with rfl | rfl <;> exact if_pos hversion
    · next htrailing =>
      rw [if_neg htrailing]
      obtain ⟨⟨method, rfl⟩, _⟩ := h
      rfl

/-- A piece of a value. -/
theorem report_value (h : p.InLine g) (text : Bytes) :
    g.report (.headerValue text) = some p.atValue := by
  unfold HttpParser.atValue
  rcases h with rfl | rfl
  · unfold HttpParser.atField
    split <;> rfl
  · unfold HttpParser.atValue
    split <;> rfl

/-- The end of a line. -/
theorem inLine_endHeader (h : p.InLine g) : p.endHeader.InLine g := by
  refine inLine_of_known ?_ h
  unfold HttpParser.endHeader
  split <;> rfl

/-- The end of a message. -/
theorem ordered_messageStep (hend : g.report .messageComplete = some .nothing) :
    p.messageStep.Ordered g := by
  refine ordered_single hend ?_
  unfold HttpParser.Expects
  rcases Execution.newMessage_cases p with heq | heq <;> simp only [heq]

/-- Behind the header a message may end. -/
theorem report_messageComplete (h : p.AfterHeader g) :
    g.report .messageComplete = some .nothing := by
  obtain ⟨version, rfl | rfl, _⟩ := h <;> rfl

/-- The end of the header. -/
theorem ordered_afterHeadersStep (h : p.AfterHeader g) : p.afterHeadersStep.Ordered g := by
  have hend := report_messageComplete h
  unfold HttpParser.afterHeadersStep
  split
  · exact ⟨.nothing, by rw [Reported.reportAll_cons, hend, Option.bind_some,
      Reported.reportAll_nil]⟩
  · split
    · exact ordered_messageStep hend
    · split
      · next hchunked =>
        obtain ⟨version, hg, hversion⟩ := h
        obtain rfl := hversion hchunked
        exact ordered_skip hg
      · split
        · exact ordered_messageStep hend
        · split
          · exact ordered_skip h
          · exact ordered_messageStep hend

/-- `s_headers_done`. -/
theorem ordered_headersDoneStep (h : p.AfterHeader g) : (p.headersDoneStep ch).Ordered g := by
  unfold HttpParser.headersDoneStep
  split
  · exact ordered_afterHeadersStep h
  · exact ordered_stop

/-- `s_headers_almost_done`. -/
theorem ordered_headersAlmostDoneStep (h : p.BetweenLines g) :
    (p.headersAlmostDoneStep ch).Ordered g := by
  unfold HttpParser.headersAlmostDoneStep
  split
  · split
    · next htrailing =>
      refine ordered_messageStep ?_
      rcases h with (rfl | rfl) | h
      · simp [HttpParser.atField, htrailing, Reported.report]
      · simp [HttpParser.atValue, htrailing, Reported.report]
      · unfold HttpParser.BeforeLines at h
        rw [if_pos htrailing] at h
        rcases h with rfl | rfl <;> rfl
    · next htrailing =>
      have hlines (hg : g.report .headersComplete = some (.header (some p.version))) :
          (({ p with
            state := .headersDone
            upgrade := p.flags.upgrade || p.method = HttpMethod.connect }.headersDoneStep ch).after
              .headersComplete).Ordered g :=
        ByteStep.Ordered.after hg
          (ordered_headersDoneStep ⟨some p.version, Or.inl rfl, fun _ => rfl⟩)
      rcases h with (rfl | rfl) | h
      · refine hlines ?_
        simp [HttpParser.atField, htrailing, Reported.report]
      · refine hlines ?_
        simp [HttpParser.atValue, htrailing, Reported.report]
      · unfold HttpParser.BeforeLines at h
        rw [if_neg htrailing] at h
        obtain ⟨⟨method, rfl⟩, hchunked⟩ := h
        refine ByteStep.Ordered.after rfl (ordered_headersDoneStep ⟨none, Or.inl rfl, fun h => ?_⟩)
        rw [show p.flags.chunked = true from h] at hchunked
        simp at hchunked
  · exact ordered_stop

/-- `s_header_field_start`. -/
theorem ordered_headerFieldStartStep (h : p.BetweenLines g) :
    (p.headerFieldStartStep ch).Ordered g := by
  unfold HttpParser.headerFieldStartStep
  split
  · exact ordered_skip h
  · split
    · exact ordered_headersAlmostDoneStep h
    · split
      · exact ordered_stop
      · exact ordered_single (report_field h [ch]) (Or.inl rfl)

/-- `s_header_field`. -/
theorem ordered_headerFieldStep (hstate : p.state = .headerField) (h : p.InLine g) :
    (p.headerFieldStep ch).Ordered g := by
  unfold HttpParser.headerFieldStep
  split
  · refine ordered_acceptCase fun p' hp' _ => ?_
    refine ordered_single (report_field (Or.inl h) [ch]) ?_
    unfold HttpParser.Expects
    rw [HttpParser.matchName_state hp', hstate]
    exact inLine_of_known (HttpParser.matchName_known hp') (Or.inl rfl)
  · split
    · exact ordered_skip h
    · split
      · exact ordered_skip h
      · split
        · exact ordered_skip (Or.inl h)
        · exact ordered_stop

/-- `s_header_value_start`. -/
theorem ordered_headerValueStartStep (h : p.InLine g) : (p.headerValueStartStep ch).Ordered g := by
  refine ordered_accept fun _ => ordered_single (report_value h [ch]) ?_
  unfold HttpParser.Expects
  rw [HttpParser.startValue_state]
  exact inLine_of_known (HttpParser.startValue_known p ch) (Or.inr rfl)

/-- A part of a target behind another one. -/
theorem report_url (method text : Bytes) :
    (Reported.target method).report (.url method text) = some (.target method) :=
  if_pos rfl

/-- The target is followed by the header lines. -/
theorem beforeLines_target {method : Bytes} (h : g = .target method ∧ p.flags = .none) :
    p.BeforeLines g := by
  unfold HttpParser.BeforeLines
  rw [h.2]
  exact ⟨⟨method, h.1⟩, rfl⟩

/-- Plain cases report nothing and go on in the same part of the message. -/
theorem plainCase_expects (h : p.plainCase ch = some p') (hok : p'.httpErrno = .ok)
    (hexpects : p.Expects g) : p'.Expects g := by
  unfold HttpParser.Expects at hexpects
  unfold HttpParser.plainCase at h
  split at h
  case h_2 heq =>
    simp only [heq] at hexpects
    unfold HttpParser.reqMethod at h
    split at h
    · obtain rfl := Option.some.inj h
      simp [HttpParser.fail] at hok
    · obtain ⟨matcher, _, rfl⟩ := Option.map_eq_some_iff.mp h
      split_ifs at hok ⊢
      · exact hexpects
      · simpa only [HttpParser.Expects, heq] using hexpects
      · cases hother : HttpParser.otherMethod p.method p.index ch with
        | none => simp [hother, HttpParser.fail] at hok
        | some method => simpa only [HttpParser.Expects, heq] using hexpects
  case h_15 heq =>
    simp only [heq] at hexpects
    unfold HttpParser.chunkSizeStart at h
    obtain ⟨_, hsome⟩ := Option.ite_none_right_eq_some.mp h
    obtain rfl := Option.some.inj hsome
    split at hok
    · simp [HttpParser.fail] at hok
    · exact hexpects
  case h_16 heq =>
    simp only [heq] at hexpects
    obtain ⟨_, hsome⟩ := Option.ite_none_right_eq_some.mp h
    obtain rfl := Option.some.inj hsome
    unfold HttpParser.chunkSize at hok ⊢
    by_cases hcr : ch = cr
    · rw [if_pos hcr]
      exact hexpects
    · rw [if_neg hcr] at hok ⊢
      cases hv : unhex ch with
      | none =>
        simp only [hv] at hok
        split at hok
        · next hend =>
          dsimp only
          rw [if_pos hend]
          exact hexpects
        · simp [HttpParser.fail] at hok
      | some v =>
        simp only [hv] at hok
        split at hok
        · simp [HttpParser.fail] at hok
        · next hle =>
          dsimp only
          rw [if_neg hle]
          simp only [HttpParser.Expects, heq]
          exact hexpects
  case h_17 heq | h_18 heq | h_19 heq =>
    simp only [heq] at hexpects
    obtain ⟨_, hsome⟩ := Option.ite_none_right_eq_some.mp h
    obtain rfl := Option.some.inj hsome
    try unfold HttpParser.chunkSizeAlmostDone at hok ⊢
    try dsimp only at hok ⊢
    split_ifs at hok ⊢ <;> first
      | (simp [HttpParser.fail] at hok; done)
      | exact Or.inr hexpects
      | (simp only [HttpParser.Expects, heq]; exact hexpects)
  case h_20 => simp at h
  all_goals
    next heq =>
    simp only [heq] at hexpects
    obtain rfl := Option.some.inj h
    try simp only [HttpParser.strictCheck, HttpParser.versionDigit] at hok ⊢
    split_ifs at hok ⊢ <;> first
      | (simp [HttpParser.fail] at hok; done)
      | exact Or.inr (beforeLines_target (p := { p with state := .headerFieldStart }) hexpects)
      | (simp only [HttpParser.Expects, heq]; exact hexpects)

/-- `s_header_value`. -/
theorem ordered_headerValueStep (hstate : p.state = .headerValue) (h : p.InLine g) :
    (p.headerValueStep ch).Ordered g := by
  unfold HttpParser.headerValueStep
  split
  · exact ordered_skip h
  · split
    · exact ordered_acceptCase fun p' hp' hok => ordered_skip (plainCase_expects hp' hok h)
    · refine ordered_acceptCase fun p' hp' _ => ordered_single (report_value h [ch]) ?_
      unfold HttpParser.Expects
      rw [HttpParser.matchValue_state hstate hp']
      exact inLine_of_known (HttpParser.matchValue_known hp') (Or.inr rfl)

/-- `s_header_value_lws`. -/
theorem ordered_headerValueLwsStep (h : p.InLine g) : (p.headerValueLwsStep ch).Ordered g := by
  unfold HttpParser.headerValueLwsStep
  split
  · exact ordered_headerValueStartStep h
  · exact ordered_headerFieldStartStep (Or.inl (inLine_endHeader h))

/-- `s_header_value_discard_lws`. -/
theorem ordered_headerValueDiscardLwsStep (h : p.InLine g) :
    (p.headerValueDiscardLwsStep ch).Ordered g := by
  unfold HttpParser.headerValueDiscardLwsStep
  split
  · exact ordered_skip h
  · exact ByteStep.Ordered.after (report_value h [])
      (ordered_headerFieldStartStep (Or.inl (Or.inr rfl)))

/-- A part of the target has been read. -/
theorem expects_target {u : UrlState} (hu : u ≠ .spacesBeforeUrl) (hflags : p.flags = .none)
    (hstate : p.state = .reqUrl u) : p.Expects (.target (httpMethodStr p.method)) := by
  unfold HttpParser.Expects
  rw [hstate]
  cases u <;> first | exact absurd rfl hu | exact ⟨rfl, hflags⟩

/-- A character of the target. -/
theorem ordered_targetStep (hg : g.report (.url (httpMethodStr p.method) [ch]) =
    some (.target (httpMethodStr p.method))) (hflags : p.flags = .none) (from' : UrlState) :
    (p.targetStep ch from').Ordered g := by
  unfold HttpParser.targetStep
  split
  · exact ordered_stop
  · exact ordered_single hg (expects_target (Execution.parseUrlChar_ne from' ch) hflags rfl)

/-- The cases of the target. -/
theorem ordered_reqUrlStep {u : UrlState} (hstate : p.state = .reqUrl u) (h : p.Expects g) :
    (p.reqUrlStep ch u).Ordered g := by
  have hexpects := h
  unfold HttpParser.Expects at hexpects
  rw [hstate] at hexpects
  unfold HttpParser.reqUrlStep
  cases u with
  | dead => exact ordered_stop
  | spacesBeforeUrl =>
    obtain ⟨rfl, hflags⟩ := hexpects
    dsimp only
    split
    · exact ordered_skip h
    · exact ordered_targetStep rfl hflags _
  | schema | schemaSlash | schemaSlashSlash | serverStart =>
    obtain ⟨rfl, hflags⟩ := hexpects
    dsimp only
    split
    · exact ordered_stop
    · exact ordered_targetStep (report_url _ _) hflags _
  | server | serverWithAt | path | queryStringStart | queryString | fragmentStart | fragment =>
    obtain ⟨rfl, hflags⟩ := hexpects
    dsimp only
    split
    · exact ordered_skip ⟨rfl, hflags⟩
    · split
      · refine ordered_skip ?_
        unfold HttpParser.Expects
        by_cases hcr : ch = cr
        · simp only [if_pos hcr]
          exact ⟨trivial, hflags⟩
        · simp only [if_neg hcr]
          exact Or.inr (beforeLines_target ⟨rfl, hflags⟩)
      · exact ordered_targetStep (report_url _ _) hflags _

/-- **The byte in the state of the parser.** -/
theorem ordered_stateStep (h : p.Expects g) : (p.stateStep ch).Ordered g := by
  have hexpects := h
  unfold HttpParser.Expects at hexpects
  unfold HttpParser.stateStep
  cases hstate : p.state with
  | startReq =>
    simp only [hstate] at hexpects
    subst hexpects
    unfold HttpParser.startReqStep
    dsimp only
    split
    · exact ordered_skip h
    · split
      · exact ordered_stop
      · split
        · exact ordered_stop
        · exact ordered_single rfl ⟨rfl, rfl⟩
  | reqUrl u => exact ordered_reqUrlStep hstate h
  | headerFieldStart | headersAlmostDone =>
    simp only [hstate] at hexpects
    first
      | exact ordered_headerFieldStartStep hexpects
      | exact ordered_headersAlmostDoneStep hexpects
  | headerField =>
    simp only [hstate] at hexpects
    exact ordered_headerFieldStep hstate hexpects
  | headerValueDiscardWs =>
    simp only [hstate] at hexpects
    dsimp only
    unfold HttpParser.headerValueDiscardWsStep
    split
    · exact ordered_skip h
    · split
      · exact ordered_skip hexpects
      · split
        · exact ordered_skip hexpects
        · exact ordered_headerValueStartStep hexpects
  | headerValueDiscardLws =>
    simp only [hstate] at hexpects
    exact ordered_headerValueDiscardLwsStep hexpects
  | headerValueStart =>
    simp only [hstate] at hexpects
    exact ordered_headerValueStartStep hexpects
  | headerValue =>
    simp only [hstate] at hexpects
    exact ordered_headerValueStep hstate hexpects
  | headerValueLws =>
    simp only [hstate] at hexpects
    exact ordered_headerValueLwsStep hexpects
  | headersDone =>
    simp only [hstate] at hexpects
    exact ordered_headersDoneStep hexpects
  | bodyIdentity =>
    simp only [hstate] at hexpects
    dsimp only
    unfold HttpParser.bodyIdentityStep
    obtain ⟨version, hg, hversion⟩ := hexpects
    have hbody : g.report (.body [ch]) = some (.body version) := by
      rcases hg with rfl | rfl <;> rfl
    dsimp only
    split
    · exact ByteStep.Ordered.after hbody (ordered_messageStep rfl)
    · refine ordered_single hbody ?_
      simp only [HttpParser.Expects, hstate]
      exact ⟨version, Or.inr rfl, hversion⟩
  | chunkData =>
    simp only [hstate] at hexpects
    dsimp only
    unfold HttpParser.chunkDataStep
    have hbody : g.report (.body [ch]) = some (.body (some p.version)) := by
      rcases hexpects with rfl | rfl <;> rfl
    refine ordered_single hbody ?_
    split
    · exact Or.inr rfl
    · simp only [HttpParser.Expects, hstate]
      exact Or.inr rfl
  | chunkDataAlmostDone =>
    simp only [hstate] at hexpects
    dsimp only
    unfold HttpParser.chunkDataAlmostDoneStep
    split
    · exact ordered_skip hexpects
    · exact ordered_stop
  | messageDone =>
    simp only [hstate] at hexpects
    exact ordered_messageStep (report_messageComplete hexpects)
  | dead | reqMethod | reqHttpStart | reqHttpH | reqHttpHT | reqHttpHTT | reqHttpHTTP
  | reqFirstHttpMajor | reqHttpMajor | reqFirstHttpMinor | reqHttpMinor | reqLineAlmostDone
  | headerValueDiscardWsAlmostDone | headerAlmostDone | chunkSizeStart | chunkSize
  | chunkParameters | chunkSizeAlmostDone | chunkDataDone =>
    exact ordered_acceptCase fun p' hp' hok => ordered_skip (plainCase_expects hp' hok h)

/-- **One byte.** Its callbacks are in order. -/
theorem ordered_step (h : p.Expects g) : (p.step ch).Ordered g := by
  unfold HttpParser.step
  split
  · dsimp only
    split
    · exact ordered_stop
    · exact ordered_stateStep h
  · exact ordered_stateStep h

/-- **Every run.** The callbacks of any bytes are in order. -/
theorem ordered_steps (h : p.Expects g) (data : Bytes) :
    ∃ g', g.reportAll (p.steps data).callbacks = some g' := by
  induction data generalizing p g with
  | nil => exact ⟨g, rfl⟩
  | cons ch data ih =>
    have hordered := @ordered_step p ch g h
    rw [HttpParser.steps]
    cases hstep : p.step ch with
    | next cbs p' =>
      rw [hstep] at hordered
      obtain ⟨g', hg', hexpects⟩ := hordered
      obtain ⟨g'', hg''⟩ := ih hexpects
      refine ⟨g'', ?_⟩
      dsimp only
      rw [Steps.after, Reported.reportAll_append, hg', Option.bind_some, hg'']
    | stop cbs p' =>
      rw [hstep] at hordered
      exact hordered

end Ordered

end Khttp
