import Khttp.HttpServer
import Khttp.Messages

/-!
# What the callbacks assemble

The request line is made again by every fragment of the target, the version is recorded by
the first header line that finds the state `HSTATE_NONE`, and a fragment of a body is appended
to a body that `http_request_new` made without room for one.
-/

namespace Khttp

open Lib

namespace ServerParseStatus

/-- The request line of the current request, once it is known. -/
def line (s : ServerParseStatus) : Option HttpRequestLine := s.currentRequest.bind HttpRequest.req

/-- The method and the target of the current request. -/
def target (s : ServerParseStatus) : Option (HttpRequestMethod × Option Bytes) :=
  s.line.map fun line => (line.method, line.uri)

/-- The version of the current request. -/
def version (s : ServerParseStatus) : Option HttpVersion := s.line.map HttpRequestLine.version

/-- A fragment of a body leaves the request line as it is. -/
theorem httpRequestAppendBody_req {request request' : HttpRequest} {fragment : Bytes}
    (h : httpRequestAppendBody request fragment = some request') : request'.req = request.req := by
  obtain ⟨body, _, rfl⟩ := Option.map_eq_some_iff.mp h
  rfl

/-- Only the callbacks that start a message touch the method and the target. -/
theorem CallbackMove.target_eq {s t : ServerParseStatus} {cb : ParserCallback} {code : ℤ}
    (h : CallbackMove s cb t code) (hcb : ¬Starts cb) : t.target = s.target := by
  cases h with
  | messageBegin | url _ _ => exact absurd trivial hcb
  | firstField _ _ hrequest hline => simp [target, line, hrequest, hline]
  | nextField _ _ hrequest => simp [target, line, hrequest]
  | headersComplete _ hrequest => simp [target, line, hrequest]
  | body hrequest hbody => simp [target, line, hrequest, httpRequestAppendBody_req hbody]
  | otherVersion | laterField | moreField | headerValue | noHeader | messageComplete => rfl

end ServerParseStatus

namespace ParsedMessage

/-- The callbacks behind the target start no message. -/
theorem not_starts {m : ParsedMessage} {cb : ParserCallback}
    (h : cb ∈ m.lineCallbacks m.headers ++ (m.rest ++ [.messageComplete])) :
    ¬ServerParseStatus.Starts cb := by
  have hlines {lines : List ParsedLine} (h : cb ∈ m.lineCallbacks lines) :
      ¬ServerParseStatus.Starts cb := by
    rcases mem_lineCallbacks h with ⟨fragment, rfl⟩ | ⟨fragment, rfl⟩
    · exact id
    · exact id
  simp only [rest, List.mem_append, List.mem_cons, List.mem_map, List.not_mem_nil, or_false] at h
  rcases h with h | (rfl | ⟨fragment, _, rfl⟩ | h) | rfl
  · exact hlines h
  · exact id
  · exact id
  · exact hlines h
  · exact id

/-- The three parts of a message that is completed. -/
theorem execute_parts {s t : ServerParseStatus} {m : ParsedMessage}
    (h : s.execute m.callbacks = some (t, true)) :
    ∃ u, s.onMessageBegin.execute m.urlCallbacks = some (u, true) ∧
      u.execute (m.lineCallbacks m.headers ++ (m.rest ++ [.messageComplete])) = some (t, true) := by
  obtain ⟨begun, hbegin, h⟩ := ServerParseStatus.execute_cons_true h
  cases hbegin
  exact ServerParseStatus.execute_initial h

end ParsedMessage

/-- The method stands for a text: it is the listed method with this text, or
`METHOD_INVALID` where no method has it. -/
def HttpRequestMethod.IsText (method : HttpRequestMethod) (text : Bytes) : Prop :=
  httpMethodGetstring method = some (cstr text) ∨
    (method = .methodInvalid ∧ ∀ other, httpMethodGetstring other ≠ some (cstr text))

/-- `http_method_fromstring` finds the method that stands for a text. -/
theorem isText_httpMethodFromstring (text : Bytes) : (httpMethodFromstring text).IsText text := by
  rcases Option.getD_eq_iff.mp (show httpMethodFromstring text = _ from rfl) with
    hfound | ⟨hnone, hinvalid⟩
  · left
    simpa using List.find?_some hfound
  · rw [← hinvalid]
    by_cases htext : httpMethodGetstring .methodInvalid = some (cstr text)
    · exact Or.inl htext
    · refine Or.inr ⟨rfl, fun other => ?_⟩
      have hall := List.find?_eq_none.mp hnone
      cases other with
      | methodOther => simp [httpMethodGetstring]
      | methodInvalid => exact htext
      | _ => simpa using hall _ (by simp)

/-- The request of a completed message has the method that was parsed, and its target is the
concatenation of all fragments. -/
def TargetAssembled (t : ServerParseStatus) (m : ParsedMessage) : Prop :=
  ∃ request line, t.currentRequest = some request ∧ request.req = some line ∧
    line.uri = some m.uri ∧ line.method.IsText m.method

/-- The fragments of a target leave the last of them. -/
theorem target_urlCallbacks {s t : ServerParseStatus} {m : ParsedMessage}
    (h : s.execute m.urlCallbacks = some (t, true)) :
    t.target = some (httpMethodFromstring m.method,
      some (cstr ((m.url :: m.moreUrl).getLast (List.cons_ne_nil _ _)))) := by
  have hsplit : m.urlCallbacks = (m.url :: m.moreUrl).dropLast.map (.url m.method) ++
      [.url m.method ((m.url :: m.moreUrl).getLast (List.cons_ne_nil _ _))] := by
    rw [ParsedMessage.urlCallbacks]
    conv_lhs => rw [← List.dropLast_append_getLast (List.cons_ne_nil m.url m.moreUrl)]
    rw [List.map_append, List.map_singleton]
  rw [hsplit] at h
  obtain ⟨u, _, hlast⟩ := ServerParseStatus.execute_initial h
  obtain ⟨v, hmove, hnil⟩ := ServerParseStatus.execute_cons_true hlast
  obtain ⟨rfl, _⟩ := Prod.mk.inj (Option.some.inj hnil)
  cases hmove with
  | url hrequest hline =>
    simp [ServerParseStatus.target, ServerParseStatus.line, (httpRequestLineNew_eq hline).1]

/-- Fragments make up their last one exactly where the others are empty. -/
theorem getLast_eq_flatten_iff {α : Type*} {fragments : List (List α)} (h : fragments ≠ []) :
    fragments.getLast h = fragments.flatten ↔ ∀ fragment ∈ fragments.dropLast, fragment = [] := by
  have hsplit : fragments.flatten = fragments.dropLast.flatten ++ fragments.getLast h := by
    conv_lhs => rw [← List.dropLast_append_getLast h]
    rw [List.flatten_append, List.flatten_singleton]
  rw [hsplit, List.self_eq_append_left, List.flatten_eq_nil_iff]

/-- The target of a completed message is assembled exactly where all fragments but the last
are empty. -/
theorem targetAssembled_iff {s t : ServerParseStatus} {m : ParsedMessage} (hnul : 0 ∉ m.uri)
    (h : s.execute m.callbacks = some (t, true)) :
    TargetAssembled t m ↔ ∀ fragment ∈ (m.url :: m.moreUrl).dropLast, fragment = [] := by
  obtain ⟨u, hurls, hrest⟩ := ParsedMessage.execute_parts h
  have htarget : t.target = some (httpMethodFromstring m.method,
      some (cstr ((m.url :: m.moreUrl).getLast (List.cons_ne_nil _ _)))) :=
    ServerParseStatus.execute_invariant
      (fun cb hcb s t code hs hmove =>
        (hmove.target_eq (ParsedMessage.not_starts hcb)).trans hs)
      (target_urlCallbacks hurls) hrest
  have hlast : cstr ((m.url :: m.moreUrl).getLast (List.cons_ne_nil _ _)) =
      (m.url :: m.moreUrl).getLast (List.cons_ne_nil _ _) :=
    cstr_of_zero_notMem fun hzero =>
      hnul (List.mem_flatten.mpr ⟨_, List.getLast_mem _, hzero⟩)
  rw [hlast] at htarget
  rw [← getLast_eq_flatten_iff (List.cons_ne_nil _ _)]
  simp only [ServerParseStatus.target, ServerParseStatus.line, Option.map_eq_some_iff,
    Option.bind_eq_some_iff, Prod.mk.injEq] at htarget
  obtain ⟨line, ⟨request, hrequest, hline⟩, hmethod, huri⟩ := htarget
  constructor
  · rintro ⟨request', line', hrequest', hline', huri', _⟩
    obtain rfl := Option.some.inj (hrequest.symm.trans hrequest')
    obtain rfl := Option.some.inj (hline.symm.trans hline')
    exact Option.some.inj (huri.symm.trans huri')
  · intro hflatten
    refine ⟨request, line, hrequest, hline, ?_, hmethod ▸ isText_httpMethodFromstring _⟩
    rw [huri, hflatten, ParsedMessage.uri]

/-- A request whose target comes in one fragment behind an empty one. -/
def wholeTarget : ParsedMessage :=
  ⟨ascii "GET", [], [ascii "/index.html"], 1, 1, [⟨ascii "Host", [], [ascii "a"]⟩], [], [],
    by simp⟩

/-- A target whose first fragment is empty is assembled. -/
theorem targetAssembled_whole :
    ∃ t, ServerParseStatus.new.execute wholeTarget.callbacks = some (t, true) ∧
      TargetAssembled t wholeTarget :=
  ⟨_, rfl, (targetAssembled_iff (s := .new) (by decide) rfl).mpr (by decide)⟩

/-- The same request with its target cut at another place. -/
def splitTarget : ParsedMessage :=
  { wholeTarget with url := ascii "/index", moreUrl := [ascii ".html"] }

/-- A target that comes in two fragments is cut off. -/
theorem not_targetAssembled_split :
    ∃ t, ServerParseStatus.new.execute splitTarget.callbacks = some (t, true) ∧
      ¬TargetAssembled t splitTarget := by
  refine ⟨_, rfl, ?_⟩
  rintro ⟨request, line, hrequest, hline, huri, _⟩
  obtain rfl := Option.some.inj hrequest
  obtain rfl := Option.some.inj hline
  exact absurd huri (by decide)

namespace ServerParseStatus

/-- Once a header line has been seen, and in callbacks that are not about one, the version
stays as it is. -/
theorem CallbackMove.version_eq {s t : ServerParseStatus} {cb : ParserCallback} {code : ℤ}
    (h : CallbackMove s cb t code) (hcb : ¬Starts cb)
    (hstate : s.parserHeaderState ≠ .hstateNone ∨
      ∀ major minor fragment, cb ≠ .headerField major minor fragment) :
    t.version = s.version ∧ (s.parserHeaderState ≠ .hstateNone →
      t.parserHeaderState ≠ .hstateNone) := by
  cases h with
  | messageBegin | url _ _ => exact absurd trivial hcb
  | otherVersion hnone _ =>
    rcases hstate with hstate | hother
    · exact absurd hnone hstate
    · exact absurd rfl (hother _ _ _)
  | firstField hnone _ _ _ =>
    rcases hstate with hstate | hother
    · exact absurd hnone hstate
    · exact absurd rfl (hother _ _ _)
  | nextField _ _ hrequest => simp [version, line, hrequest]
  | headersComplete _ hrequest => simp [version, line, hrequest]
  | body hrequest hbody => simp [version, line, hrequest, httpRequestAppendBody_req hbody]
  | laterField | moreField | headerValue => exact ⟨rfl, by simp⟩
  | noHeader | messageComplete => exact ⟨rfl, id⟩

/-- Behind the first header line the version stays as it is. -/
theorem execute_version {s t : ServerParseStatus} {cbs : List ParserCallback} {ok : Bool}
    (hcbs : ∀ cb ∈ cbs, ¬Starts cb) (hstate : s.parserHeaderState ≠ .hstateNone)
    (h : s.execute cbs = some (t, ok)) : t.version = s.version := by
  have hkept := execute_invariant
    (P := fun u => u.version = s.version ∧ u.parserHeaderState ≠ .hstateNone)
    (fun cb hcb u v code hu hmove => by
      obtain ⟨hversion, hnext⟩ := hmove.version_eq (hcbs cb hcb) (Or.inl hu.2)
      exact ⟨hversion.trans hu.1, hnext hu.2⟩)
    ⟨rfl, hstate⟩ h
  exact hkept.1

end ServerParseStatus

/-- The target leaves the request without a version, and the header state as it was. -/
theorem version_urlCallbacks {s t : ServerParseStatus} {m : ParsedMessage}
    (h : s.execute m.urlCallbacks = some (t, true)) :
    t.version = some .httpxx ∧ t.parserHeaderState = s.parserHeaderState := by
  obtain ⟨u, hmove, hrest⟩ := ServerParseStatus.execute_cons_true h
  have hurl {u v : ServerParseStatus} {method fragment : Bytes} {code : ℤ}
      (hmove : ServerParseStatus.CallbackMove u (.url method fragment) v code) :
      v.version = some .httpxx ∧ v.parserHeaderState = u.parserHeaderState := by
    cases hmove with
    | url _ hline =>
      simp [ServerParseStatus.version, ServerParseStatus.line, (httpRequestLineNew_eq hline).2]
  refine ServerParseStatus.execute_invariant (P := fun v => v.version = some .httpxx ∧
    v.parserHeaderState = s.parserHeaderState) ?_ (hurl hmove) hrest
  intro cb hcb v w code hv hmove
  obtain ⟨fragment, _, rfl⟩ := List.mem_map.mp hcb
  exact ⟨(hurl hmove).1, (hurl hmove).2.trans hv.2⟩

/-- The version of a completed message is recorded exactly where a header line found the state
`HSTATE_NONE`. -/
theorem version_callbacks {s t : ServerParseStatus} {m : ParsedMessage}
    (h : s.execute m.callbacks = some (t, true)) :
    if s.parserHeaderState = .hstateNone ∧ m.headers ≠ [] then
      ∃ version, ServerParseStatus.requestVersion m.major m.minor = some version ∧
        t.version = some version
    else t.version = some .httpxx := by
  obtain ⟨u, hurls, hrest⟩ := ParsedMessage.execute_parts h
  obtain ⟨hversion, hstate⟩ := version_urlCallbacks hurls
  have hcbs (cb : ParserCallback)
      (hcb : cb ∈ m.lineCallbacks m.headers ++ (m.rest ++ [.messageComplete])) :=
    ParsedMessage.not_starts hcb
  have hbegun : u.parserHeaderState = s.parserHeaderState := hstate
  by_cases hnone : s.parserHeaderState = .hstateNone
  · cases hheaders : m.headers with
    | nil =>
      rw [if_neg (by simp), ← hversion]
      have hfields (cb : ParserCallback)
          (hcb : cb ∈ m.lineCallbacks m.headers ++ (m.rest ++ [.messageComplete]))
          (major minor : ℕ) (fragment : Bytes) : cb ≠ .headerField major minor fragment := by
        rintro rfl
        simp [hheaders, m.trailers_nil hheaders, ParsedMessage.lineCallbacks,
          ParsedMessage.rest] at hcb
      exact ServerParseStatus.execute_invariant (P := fun v => v.version = u.version)
        (fun cb hcb v w code hv hmove =>
          (hmove.version_eq (hcbs cb hcb) (Or.inr (hfields cb hcb))).1.trans hv) rfl hrest
    | cons first lines =>
      rw [if_pos ⟨hnone, by simp⟩]
      have hsplit : ∃ others, m.lineCallbacks m.headers ++ (m.rest ++ [.messageComplete]) =
          .headerField m.major m.minor first.field :: others :=
        ⟨_, by
          rw [hheaders, ParsedMessage.lineCallbacks, List.flatMap_cons, ParsedLine.callbacks,
            List.map_cons, List.cons_append, List.cons_append, List.cons_append]⟩
      obtain ⟨others, hothers⟩ := hsplit
      rw [hothers] at hrest hcbs
      obtain ⟨v, hmove, hlater⟩ := ServerParseStatus.execute_cons_true hrest
      have hfirst : ∃ version, ServerParseStatus.requestVersion m.major m.minor = some version ∧
          v.version = some version ∧ v.parserHeaderState ≠ .hstateNone := by
        cases hmove with
        | firstField _ hknown _ hline =>
          exact ⟨_, hknown, by simp [ServerParseStatus.version, ServerParseStatus.line], by simp⟩
        | nextField hvalue _ _ => rw [hbegun, hnone] at hvalue; simp at hvalue
        | laterField hvalue _ => rw [hbegun, hnone] at hvalue; simp at hvalue
        | moreField hfield _ => rw [hbegun, hnone] at hfield; simp at hfield
      obtain ⟨version, hknown, hthis, hnext⟩ := hfirst
      refine ⟨version, hknown, ?_⟩
      rw [ServerParseStatus.execute_version (fun cb hcb => hcbs cb (by simp [hcb])) hnext hlater,
        hthis]
  · rw [if_neg fun hboth => hnone hboth.1]
    rw [ServerParseStatus.execute_version hcbs (hbegun ▸ hnone) hrest, hversion]

/-- A head names one of the two versions. -/
def NamesVersion (head : Bytes) : Prop :=
  ascii "HTTP/1.0 " <+: head ∨ ascii "HTTP/1.1 " <+: head

/-- The request of a completed message has the version that was parsed, every head made for an
answer to it names a version, and a request of version 1.1 without a host is answered 400. -/
def AnswersVersion (t : ServerParseStatus) (m : ParsedMessage) : Prop :=
  ∃ request line, t.currentRequest = some request ∧ request.req = some line ∧
    ServerParseStatus.requestVersion m.major m.minor = some line.version ∧
    (∀ env config answer date resp head, serverProcessRequest env config request = some answer →
      httpResponseWrite date answer.response = some (resp, some head) → NamesVersion head) ∧
    (m.major = 1 → m.minor = 1 → httpHeaderListGet request.headers headerHost = none →
      ∀ env config, (∀ page, env.errorPage = some page → strlen page ≠ 0) →
        ∃ answer, serverProcessRequest env config request = some answer ∧
          answer.response.resp.code = 400)

/-- The parser's version is recorded as 1.0 or 1.1. -/
theorem requestVersion_eq {major minor : ℕ} {version : HttpVersion}
    (h : ServerParseStatus.requestVersion major minor = some version) :
    major = 1 ∧ (minor = 0 ∧ version = .http10 ∨ minor = 1 ∧ version = .http11) := by
  unfold ServerParseStatus.requestVersion at h
  split_ifs at h with hmajor hzero hone
  · obtain rfl := Option.some.inj h
    exact ⟨hmajor, Or.inl ⟨hzero, rfl⟩⟩
  · obtain rfl := Option.some.inj h
    exact ⟨hmajor, Or.inr ⟨hone, rfl⟩⟩

/-- The status line of a known version names it. -/
theorem namesVersion_statusLine {resp : HttpResponseLine} (hversion : resp.version ≠ .httpxx)
    (tail : Bytes) : NamesVersion (statusLine resp ++ tail) := by
  unfold statusLine
  cases hthis : resp.version with
  | http10 => exact Or.inl ⟨_, by simp only [List.append_assoc]; rfl⟩
  | http11 => exact Or.inr ⟨_, by simp only [List.append_assoc]; rfl⟩
  | httpxx => exact absurd hthis hversion

/-- The head of a new response starts with its status line. -/
theorem httpResponseWrite_new {date head : Bytes} {resp : HttpResponseLine}
    {headers : List HttpHeader} {body : HttpBody} {response : HttpResponse}
    (h : httpResponseWrite date { httpResponseNew resp with headers, body } =
      some (response, some head)) : statusLine resp <+: head := by
  simp only [httpResponseWrite, httpResponseNew, Option.bind_eq_bind, Option.bind_eq_some_iff,
    Option.some.injEq, Prod.mk.injEq] at h
  obtain ⟨printed, _, _, rfl⟩ := h
  exact ⟨printed.flatMap headerLine ++ ascii "\r\n", by rw [List.append_assoc]; rfl⟩

/-- The version of a completed message is recorded, and its answer made for it, exactly where
the message has a header line and none came before it on this status. -/
theorem answersVersion_iff {s t : ServerParseStatus} {m : ParsedMessage}
    (h : s.execute m.callbacks = some (t, true)) :
    AnswersVersion t m ↔ s.parserHeaderState = .hstateNone ∧ m.headers ≠ [] := by
  have hversion := version_callbacks h
  constructor
  · rintro ⟨request, line, hrequest, hline, hknown, _⟩
    by_contra hnot
    rw [if_neg hnot] at hversion
    have hxx : line.version = .httpxx := by
      simpa [ServerParseStatus.version, ServerParseStatus.line, hrequest, hline] using hversion
    rw [hxx] at hknown
    rcases (requestVersion_eq hknown).2 with ⟨_, heq⟩ | ⟨_, heq⟩ <;> simp at heq
  · intro hcond
    rw [if_pos hcond] at hversion
    obtain ⟨version, hknown, hthis⟩ := hversion
    simp only [ServerParseStatus.version, ServerParseStatus.line, Option.map_eq_some_iff,
      Option.bind_eq_some_iff] at hthis
    obtain ⟨line, ⟨request, hrequest, hline⟩, rfl⟩ := hthis
    obtain ⟨_, hcases⟩ := requestVersion_eq hknown
    have hne : line.version ≠ .httpxx := by
      rcases hcases with ⟨_, heq⟩ | ⟨_, heq⟩ <;> simp [heq]
    refine ⟨request, line, hrequest, hline, hknown, ?_, ?_⟩
    · intro env config answer date resp head hanswer hwrite
      obtain ⟨status, headers, body, hresponse, hstatus⟩ := serverProcessRequest_eq hline hanswer
      rw [hresponse] at hwrite
      obtain ⟨tail, rfl⟩ := httpResponseWrite_new hwrite
      apply namesVersion_statusLine
      rcases hstatus with heq | heq
      · simp [heq]
      · rw [heq]
        exact hne
    · intro _ hminor hhost env config hpage
      have hrefused : requestTarget config request line =
          some (.error ⟨400, ascii "Host header required"⟩) := by
        have h11 : line.version = .http11 := by
          rcases hcases with ⟨hzero, _⟩ | ⟨_, heq⟩
          · omega
          · exact heq
        simp [requestTarget, requestHost, requestHostname, h11, hhost]
      obtain ⟨response, hresponse⟩ := exists_refuse hpage ⟨400, ascii "Host header required"⟩
      refine ⟨⟨response, none⟩, ?_, ?_⟩
      · rw [serverProcessRequest, hline, Option.bind_some, hrefused, Option.bind_some]
        exact congrArg (Option.map fun response => (⟨response, none⟩ : ServerAnswer)) hresponse
      · obtain ⟨headers, body, rfl⟩ := refuse_eq hresponse
        rfl

/-- A request with a header line on a new connection gets its version. -/
theorem answersVersion_whole :
    ∃ t, ServerParseStatus.new.execute wholeTarget.callbacks = some (t, true) ∧
      AnswersVersion t wholeTarget :=
  ⟨_, rfl, (answersVersion_iff (s := .new) rfl).mpr (by decide)⟩

/-- A request of version 1.1 without header lines. -/
def bareRequest : ParsedMessage := ⟨ascii "GET", ascii "/", [], 1, 1, [], [], [], by simp⟩

/-- A request without header lines keeps the version that a new request line has. -/
theorem not_answersVersion_bare :
    ∃ t, ServerParseStatus.new.execute bareRequest.callbacks = some (t, true) ∧
      ¬AnswersVersion t bareRequest := by
  refine ⟨_, rfl, ?_⟩
  rintro ⟨request, line, hrequest, hline, hknown, _⟩
  obtain rfl := Option.some.inj hrequest
  obtain rfl := Option.some.inj hline
  exact absurd hknown (by decide)

/-- The body of the current request is the concatenation of the fragments behind a message of
which every callback succeeds. -/
def BodyAssembled (s : ServerParseStatus) (m : ParsedMessage) : Prop :=
  ∃ t request, s.execute m.callbacks = some (t, true) ∧ t.currentRequest = some request ∧
    request.body.bytes = m.bodies.flatten

/-- No message with a body is assembled: the first fragment meets a body of type `BODY_NONE`. -/
theorem not_bodyAssembled {s : ServerParseStatus} {m : ParsedMessage} (hbody : m.bodies ≠ []) :
    ¬BodyAssembled s m := by
  rintro ⟨t, _, h, _⟩
  obtain ⟨fragment, fragments, hbodies⟩ := List.exists_cons_of_ne_nil hbody
  have hsplit : m.callbacks = (.messageBegin :: (m.urlCallbacks ++ (m.lineCallbacks m.headers ++
      [.headersComplete]))) ++ .body fragment :: (fragments.map .body ++
        (m.lineCallbacks m.trailers ++ [.messageComplete])) := by
    simp [ParsedMessage.callbacks, ParsedMessage.rest, hbodies]
  rw [hsplit] at h
  obtain ⟨u, hfirst, hlast⟩ := ServerParseStatus.execute_initial h
  obtain ⟨v, hbegin, hinner⟩ := ServerParseStatus.execute_cons_true hfirst
  have hv : v.NoBody := by
    cases hbegin
    intro request hrequest
    obtain rfl := Option.some.inj hrequest
    rfl
  have hu : u.NoBody := ServerParseStatus.execute_invariant
    (fun _ _ _ _ _ hs hmove => hmove.noBody hs) hv hinner
  obtain ⟨w, hmove, _⟩ := ServerParseStatus.execute_cons_true hlast
  cases hmove with
  | body hrequest happend =>
    rw [ServerParseStatus.httpRequestAppendBody_eq_none (hu _ hrequest)] at happend
    simp at happend

/-- A request with a body that comes in two fragments. -/
def postRequest : ParsedMessage :=
  { wholeTarget with
    method := ascii "POST"
    headers := [⟨ascii "Content-Length", [], [ascii "4"]⟩]
    bodies := [ascii "ab", ascii "cd"]
    trailers_nil := by simp }

/-- No fragment of a chunked body finds room. -/
theorem not_bodyAssembled_chunked : ¬BodyAssembled .new
    { postRequest with
      headers := [⟨ascii "Transfer-Encoding", [], [ascii "chunked"]⟩]
      trailers_nil := by simp } :=
  not_bodyAssembled (by decide)

/-- The first fragment of a body fails an assertion. -/
theorem not_bodyAssembled_post : ¬BodyAssembled .new postRequest := by
  rintro ⟨t, _, h, _⟩
  have hnone : ServerParseStatus.new.execute postRequest.callbacks = none := by decide
  simp [hnone] at h

end Khttp
