import Khttp.Validation

/-!
# Equivalent spellings of a request

`http_header_list_get` compares names with `strcmp`, while `config_server_gethost` and the
tests of the connection header ignore case, and the value of the host header is looked up
with its port. A request in version 1.1 is therefore refused in some spelling as soon as it
has a host header.
-/

namespace Khttp

/-- A header name or value in small letters. -/
def lowerText (text : Bytes) : Bytes := (cstr text).map tolower

/-- The header with its name in small letters. -/
def HttpHeader.lowered (header : HttpHeader) : HttpHeader :=
  { header with name := lowerText header.name }

/-- Texts are equal ignoring case when they are the same in small letters. -/
theorem strcaseeq_iff {a b : Bytes} : strcaseeq a b = true ↔ lowerText a = lowerText b := by
  rw [strcaseeq, beq_iff_eq]
  rfl

/-- A letter in small is no capital, and only the zero byte becomes zero. -/
theorem tolower_spec (c : UInt8) :
    ¬ (65 ≤ tolower c ∧ tolower c ≤ 90) ∧ (tolower c = 0 → c = 0) ∧
      tolower (tolower c) = tolower c := by
  have hsmall : ¬ (65 ≤ tolower c ∧ tolower c ≤ 90) ∧ (tolower c = 0 → c = 0) := by
    unfold tolower
    split
    · next hcapital =>
      obtain ⟨hlow, hhigh⟩ := hcapital
      have hsum : (c + 32).toNat = c.toNat + 32 := by
        have hle : c.toNat ≤ 90 := hhigh
        rw [UInt8.toNat_add]
        exact Nat.mod_eq_of_lt (by simp; omega)
      have hge : 65 ≤ c.toNat := hlow
      constructor
      · rintro ⟨_, hle⟩
        have hle : (c + 32).toNat ≤ 90 := hle
        omega
      · intro hzero
        have hzero := congrArg UInt8.toNat hzero
        simp only [hsum, UInt8.toNat_zero] at hzero
        omega
    · next hsmall => exact ⟨hsmall, id⟩
  refine ⟨hsmall.1, hsmall.2, ?_⟩
  conv_lhs => rw [tolower, if_neg hsmall.1]

/-- Small letters end where the text does. -/
@[simp] theorem cstr_lowerText (text : Bytes) : cstr (lowerText text) = lowerText text := by
  apply cstr_of_zero_notMem
  intro hzero
  obtain ⟨c, hc, hlower⟩ := List.mem_map.mp hzero
  rw [(tolower_spec c).2.1 hlower] at hc
  exact zero_notMem_cstr text hc

/-- Small letters are small already. -/
@[simp] theorem lowerText_lowerText (text : Bytes) :
    lowerText (lowerText text) = lowerText text := by
  have hsame : tolower ∘ tolower = tolower := funext fun c => (tolower_spec c).2.2
  rw [lowerText, cstr_lowerText, lowerText, List.map_map, hsame]

/-- A name with a capital is not in small letters. -/
theorem lowerText_ne {name : Bytes} (hcapital : ∃ c ∈ cstr name, 65 ≤ c ∧ c ≤ 90) (text : Bytes) :
    lowerText text ≠ cstr name := by
  intro heq
  obtain ⟨c, hc, hbounds⟩ := hcapital
  rw [← heq] at hc
  obtain ⟨d, _, rfl⟩ := List.mem_map.mp hc
  exact (tolower_spec d).1 hbounds

/-- Among names in small letters only the one in the middle has a capital. -/
theorem httpHeaderListGet_middle {before after : List HttpHeader} {header : HttpHeader}
    {name : Bytes} (hcapital : ∃ c ∈ cstr name, 65 ≤ c ∧ c ≤ 90) :
    httpHeaderListGet (before.map HttpHeader.lowered ++ header :: after.map HttpHeader.lowered)
      name = if cstr header.name = cstr name then some header else none := by
  have hlen : strlen name ≠ 0 := by
    obtain ⟨c, hc, _⟩ := hcapital
    exact List.length_pos_iff.mpr (List.ne_nil_of_mem hc) |>.ne'
  have hnone (list : List HttpHeader) :
      (list.map HttpHeader.lowered).find? (fun elem => cstr elem.name == cstr name) = none := by
    rw [List.find?_eq_none]
    intro elem helem
    obtain ⟨found, _, rfl⟩ := List.mem_map.mp helem
    simpa [HttpHeader.lowered] using lowerText_ne hcapital found.name
  rw [httpHeaderListGet, if_neg hlen, List.find?_append, hnone, Option.none_or, List.find?_cons]
  split
  · next heq => rw [if_pos (by simpa using heq)]
  · next hne => rw [hnone, if_neg (by simpa using hne)]

/-- No name in small letters has a capital. -/
theorem httpHeaderListGet_lowered {list : List HttpHeader} {name : Bytes}
    (hcapital : ∃ c ∈ cstr name, 65 ≤ c ∧ c ≤ 90) :
    httpHeaderListGet (list.map HttpHeader.lowered) name = none := by
  unfold httpHeaderListGet
  split
  · rfl
  · rw [List.find?_eq_none]
    intro elem helem
    obtain ⟨found, _, rfl⟩ := List.mem_map.mp helem
    simpa [HttpHeader.lowered] using lowerText_ne hcapital found.name

/-- The name of the host has a capital. -/
theorem capital_headerHost : ∃ c ∈ cstr headerHost, 65 ≤ c ∧ c ≤ 90 := ⟨72, by decide⟩

/-- So has that of the connection. -/
theorem capital_headerConnection : ∃ c ∈ cstr headerConnection, 65 ≤ c ∧ c ≤ 90 :=
  ⟨67, by decide⟩

/-- A host name without a port. -/
def IsHostName (host : Bytes) : Prop := host ≠ [] ∧ ∀ c ∈ host, isHostChar c = true

/-- `host:port`. -/
def withPort (host : Bytes) (port : ℕ) : Bytes := host ++ ascii ":" ++ decimal port

/-- The header names the host, in some spelling. -/
def HttpHeader.NamesHost (header : HttpHeader) : Prop := strcaseeq header.name headerHost = true

instance (header : HttpHeader) : Decidable header.NamesHost := instDecidableEqBool _ _

/-- The header is about the connection, in some spelling. -/
def HttpHeader.NamesConnection (header : HttpHeader) : Prop :=
  strcaseeq header.name headerConnection = true

/-- The same header in another spelling: the name in other letters, and perhaps a port behind the
host. -/
inductive SameHeader (header header' : HttpHeader) : Prop
  | name (hname : strcaseeq header.name header'.name = true)
      (hcontent : header'.content = header.content)
  | port {host : Bytes} {port : ℕ} (hname : strcaseeq header.name header'.name = true)
      (hhost : header.NamesHost) (hcontent : header.content = some host)
      (hplain : IsHostName host) (hport : port < 2 ^ 16)
      (hcontent' : header'.content = some (withPort host port))

/-- The same request in another spelling of its headers. -/
def Equivalent (request request' : HttpRequest) : Prop :=
  request'.req = request.req ∧ request'.body = request.body ∧
    List.Forall₂ SameHeader request.headers request'.headers

/-- The response of `server_process_request`. -/
def answerResponse (env : ServerEnv) (config : ConfigServer) (request : HttpRequest) :
    Option HttpResponse := (serverProcessRequest env config request).map (·.response)

/-- Every spelling of the request gets the same response. -/
def SameAnswers (env : ServerEnv) (config : ConfigServer) (request : HttpRequest) : Prop :=
  ∀ request', Equivalent request request' →
    answerResponse env config request' = answerResponse env config request

/-- The refusal of a request in version 1.1 without a host header. -/
def hostMissing : Refusal := ⟨400, ascii "Host header required"⟩

/-- The refusal of a request without a path. -/
def pathMissing : Refusal := ⟨400, ascii "URI is required or was invalid"⟩

/-- A request with a host header alone. -/
def hostRequest (value : Option Bytes) : HttpRequest :=
  { httpRequestNew with headers := [⟨headerHost, value⟩] }

/-- A host header of this value makes no difference to a request in version 1.1: the request is
refused for its path while both refusals have one page, or nothing is found and there is no page
at all. -/
inductive AnsweredAsMissing (env : ServerEnv) (config : ConfigServer) (line : HttpRequestLine)
    (value : Option Bytes) : Prop
  | page {name : Bytes} {hconfig : ConfigHost} (hvalue : value = some name)
      (hhost : configServerGethost config (some (cstr name)) = some (some hconfig))
      (hpath : requestPath line = some (.error pathMissing))
      (hpage : refuse env pathMissing = refuse env hostMissing)
  | empty {page : Bytes} (hpage : env.errorPage = some page) (hempty : strlen page = 0)
      (hfile : ∀ uri hconfig file,
        ¬ PassesOthers env config (hostRequest value) line uri hconfig file)

/-- No header about the connection says anything but what is assumed without it: that it stays
open, or in version 1.0 that it is closed. -/
def ConnectionIgnored (request : HttpRequest) (line : HttpRequestLine) : Prop :=
  ∀ header ∈ request.headers, header.NamesConnection →
    ∃ content, header.content = some content ∧
      strcaseeq content (if line.version = .http10 then ascii "Keep-Alive" else ascii "close") =
        false

/-- Every header is a spelling of itself. -/
theorem SameHeader.refl (header : HttpHeader) : SameHeader header header :=
  .name (strcaseeq_iff.mpr rfl) rfl

/-- Small letters are a spelling. -/
theorem SameHeader.lowered (header : HttpHeader) : SameHeader header header.lowered :=
  .name (strcaseeq_iff.mpr (by simp [HttpHeader.lowered])) rfl

/-- A request is a spelling of itself. -/
theorem Equivalent.refl (request : HttpRequest) : Equivalent request request :=
  ⟨rfl, rfl, List.forall₂_same.mpr fun header _ => .refl header⟩

section

variable {env : ServerEnv} {config : ConfigServer} {request request' : HttpRequest}
  {line : HttpRequestLine} {header header' : HttpHeader}

/-- A request with all names in small letters is a spelling of it. -/
theorem equivalent_lowered (request : HttpRequest) :
    Equivalent request { request with headers := request.headers.map HttpHeader.lowered } := by
  refine ⟨rfl, rfl, ?_⟩
  rw [List.forall₂_map_right_iff]
  exact List.forall₂_same.mpr fun header _ => .lowered header

/-- So is one in which a header is spelled otherwise. -/
theorem equivalent_middle {before after : List HttpHeader}
    (hheaders : request.headers = before ++ header :: after) (hsame : SameHeader header header') :
    Equivalent request { request with
      headers := before.map HttpHeader.lowered ++ header' :: after.map HttpHeader.lowered } := by
  refine ⟨rfl, rfl, ?_⟩
  rw [hheaders]
  apply List.rel_append
  · rw [List.forall₂_map_right_iff]
    exact List.forall₂_same.mpr fun header _ => .lowered header
  · refine .cons hsame ?_
    rw [List.forall₂_map_right_iff]
    exact List.forall₂_same.mpr fun header _ => .lowered header

/-- Requests with the same host lead to the same file or refusal. -/
theorem requestFile_congr (h : requestHost config request line = requestHost config request' line) :
    requestFile env config request line = requestFile env config request' line := by
  unfold requestFile requestTarget
  rw [h]

/-- Before version 1.1 the headers do not matter for the file. -/
theorem requestFile_of_version (hversion : line.version ≠ .http11) :
    requestFile env config request line = requestFile env config request' line := by
  apply requestFile_congr
  simp only [requestHost, requestHostname, if_neg hversion]

/-- In version 1.1 only the value of the host header matters for it. -/
theorem requestFile_of_host (hversion : line.version = .http11)
    (hget : httpHeaderListGet request.headers headerHost = some header) :
    requestFile env config request line =
      requestFile env config (hostRequest header.content) line := by
  have hhost : httpHeaderListGet (hostRequest header.content).headers headerHost =
      some ⟨headerHost, header.content⟩ := rfl
  apply requestFile_congr
  simp only [requestHost, requestHostname, if_pos hversion, hget, hhost]

/-- Without a host header a request in version 1.1 is refused. -/
theorem answerResponse_of_missing (hline : request.req = some line)
    (hversion : line.version = .http11)
    (hget : httpHeaderListGet request.headers headerHost = none) :
    answerResponse env config request = refuse env hostMissing := by
  have hrefused : requestFile env config request line = some (.error hostMissing) := by
    simp only [requestFile, requestTarget, requestHost, requestHostname, if_pos hversion, hget,
      Option.bind_some]
    rfl
  rw [answerResponse, serverProcessRequest_of_refusal hline hrefused, Option.map_map]
  exact Option.map_id'

/-- The host of a request in version 1.1 is that of the value of its header. -/
theorem exists_value_of_requestHost {hconfig : ConfigHost} (hversion : line.version = .http11)
    (hget : httpHeaderListGet request.headers headerHost = some header)
    (hhost : requestHost config request line = some (.ok hconfig)) :
    ∃ name, header.content = some name ∧
      configServerGethost config (some (cstr name)) = some (some hconfig) := by
  cases hcontent : header.content with
  | none => simp [requestHost, requestHostname, if_pos hversion, hget, hcontent] at hhost
  | some name =>
    refine ⟨name, rfl, ?_⟩
    simp only [requestHost, requestHostname, if_pos hversion, hget, hcontent, Option.map_some,
      Option.bind_some] at hhost
    obtain ⟨host, hfound, hhost⟩ := Option.map_eq_some_iff.mp hhost
    cases host with
    | none => simp at hhost
    | some host =>
      obtain rfl := Except.ok.inj hhost
      exact hfound

/-- A request in version 1.1 that is answered as if its host was missing has a host header that
makes no difference. -/
theorem answeredAsMissing_of_answerResponse {close : Bool} (hline : request.req = some line)
    (hversion : line.version = .http11)
    (hget : httpHeaderListGet request.headers headerHost = some header)
    (hclose : closesConnection request line = some close)
    (hanswer : answerResponse env config request = refuse env hostMissing) :
    AnsweredAsMissing env config line header.content := by
  have hnofile (uri : Bytes) (hconfig : ConfigHost) (file : OpenedFile) :
      ¬ PassesOthers env config (hostRequest header.content) line uri hconfig file := by
    intro hpasses
    have hfile := requestFile_eq_ok_iff.mpr ⟨uri, hconfig, hpasses⟩
    rw [← requestFile_of_host hversion hget] at hfile
    rw [answerResponse, serverProcessRequest_of_file hline hfile, hclose] at hanswer
    have hcode : hostMissing.code = 200 := (refuse_code hanswer.symm).symm
    exact absurd hcode (by decide)
  cases hpage : refuse env hostMissing with
  | none =>
    have hempty : ¬ ∀ page, env.errorPage = some page → strlen page ≠ 0 := by
      intro hfull
      obtain ⟨response, hresponse⟩ := exists_refuse hfull hostMissing
      simp [hpage] at hresponse
    push Not at hempty
    obtain ⟨page, hpage, hempty⟩ := hempty
    exact .empty hpage hempty hnofile
  | some missing =>
    rw [answerResponse, hpage] at hanswer
    rcases hfound : requestFile env config request line with _ | refusal | file
    · simp [serverProcessRequest_of_requestFile hline, hfound] at hanswer
    · rw [serverProcessRequest_of_refusal hline hfound, Option.map_map] at hanswer
      have hsame : refuse env refusal = some missing := by simpa using hanswer
      have hcode : refusal.code = 400 := (refuse_code hsame).symm.trans (refuse_code hpage)
      rcases requestFile_error hfound with hhost | ⟨⟨hconfig, hhost⟩, hpath⟩ | hlookup
      · rcases requestHost_error hhost with ⟨_, hnone, _⟩ | hother
        · simp [hget] at hnone
        · exact absurd (hcode.symm.trans hother) (by decide)
      · rcases requestPath_error hpath with hother | rfl
        · exact absurd (hcode.symm.trans hother) (by decide)
        · obtain ⟨name, hvalue, hfoundHost⟩ := exists_value_of_requestHost hversion hget hhost
          exact .page hvalue hfoundHost hpath (hsame.trans hpage.symm)
      · rw [hcode] at hlookup
        exact absurd hlookup (by decide)
    · rw [requestFile_of_host hversion hget] at hfound
      obtain ⟨uri, hconfig, hpasses⟩ := requestFile_eq_ok_iff.mp hfound
      exact absurd hpasses (hnofile uri hconfig file)

/-- The response to a request for its file or refusal. -/
theorem answerResponse_eq (hline : request.req = some line) :
    answerResponse env config request = (requestFile env config request line).bind fun
      | .error refusal => refuse env refusal
      | .ok file => (closesConnection request line).map (fileResponse env line file) := by
  rcases hfound : requestFile env config request line with _ | refusal | file
  · simp [answerResponse, serverProcessRequest_of_requestFile hline, hfound]
  · simp [answerResponse, serverProcessRequest_of_refusal hline hfound, Function.comp_def]
  · simp [answerResponse, serverProcessRequest_of_file hline hfound, Function.comp_def]

/-- Whether the connection is closed is seen in the response. -/
theorem fileResponse_injective (env : ServerEnv) (line : HttpRequestLine) (file : OpenedFile) :
    Function.Injective (fileResponse env line file) := by
  intro a b h
  have hlength := congrArg (fun response => response.headers.length) h
  cases a <;> cases b <;> simp_all [fileResponse, fileHeaders]

/-- Without a header about it the connection is closed in version 1.0. -/
theorem closesConnection_of_missing
    (hget : httpHeaderListGet request.headers headerConnection = none) :
    closesConnection request line = some (decide (line.version = .http10)) := by
  rw [closesConnection, hget]

/-- With one its value decides. -/
theorem closesConnection_of_get
    (hget : httpHeaderListGet request.headers headerConnection = some header) :
    closesConnection request line = header.content.map fun content =>
      strcaseeq content (ascii "close") ||
        (line.version = .http10 && !strcaseeq content (ascii "Keep-Alive")) := by
  rw [closesConnection, hget]

/-- No text is both of those that the header about the connection is compared with. -/
theorem not_close_of_keepAlive {content : Bytes}
    (h : strcaseeq content (ascii "Keep-Alive") = true) :
    strcaseeq content (ascii "close") = false := by
  rw [Bool.eq_false_iff]
  intro hclose
  have hsame := (strcaseeq_iff.mp h).symm.trans (strcaseeq_iff.mp hclose)
  exact absurd hsame (by decide)

/-- A value of that header says what is assumed without it unless it is one of two texts. -/
theorem closes_eq_assumed_iff {content : Bytes} :
    (strcaseeq content (ascii "close") ||
        (line.version = .http10 && !strcaseeq content (ascii "Keep-Alive"))) =
        decide (line.version = .http10) ↔
      strcaseeq content (if line.version = .http10 then ascii "Keep-Alive" else ascii "close") =
        false := by
  by_cases hversion : line.version = .http10
  · cases hkeep : strcaseeq content (ascii "Keep-Alive") with
    | false => simp [hversion, hkeep]
    | true => simp [hversion, hkeep, not_close_of_keepAlive hkeep]
  · simp [hversion]

/-- A header keeps its value when it is given the exact name. -/
theorem SameHeader.rename {name : Bytes} (h : SameHeader header header')
    (hname : strcaseeq header.name name = true) : SameHeader header ⟨name, header'.content⟩ := by
  cases h with
  | name _ hcontent => exact .name hname hcontent
  | port _ hhost hcontent hplain hport hcontent' =>
    exact .port hname hhost hcontent hplain hport hcontent'

/-- A host header of a request whose spellings get the same response makes no difference. -/
theorem SameAnswers.host (hsame : SameAnswers env config request) (hline : request.req = some line)
    (hversion : line.version = .http11) (hheader : header ∈ request.headers)
    (hname : header.NamesHost) (hspelled : SameHeader header header') :
    AnsweredAsMissing env config line header'.content := by
  obtain ⟨before, after, hheaders⟩ := List.append_of_mem hheader
  have hrenamed := hspelled.rename hname
  let lowered : HttpRequest :=
    { request with headers := request.headers.map HttpHeader.lowered }
  let spelled : HttpRequest := { request with
    headers := before.map HttpHeader.lowered ++
      ⟨headerHost, header'.content⟩ :: after.map HttpHeader.lowered }
  have hlowered : answerResponse env config lowered = refuse env hostMissing :=
    answerResponse_of_missing (show lowered.req = some line from hline) hversion
      (httpHeaderListGet_lowered capital_headerHost)
  have hget : httpHeaderListGet spelled.headers headerHost =
      some ⟨headerHost, header'.content⟩ := by
    rw [httpHeaderListGet_middle capital_headerHost, if_pos rfl]
  have hclose : closesConnection spelled line = some (decide (line.version = .http10)) := by
    have hother : ¬ cstr headerHost = cstr headerConnection := by decide
    apply closesConnection_of_missing
    rw [httpHeaderListGet_middle capital_headerConnection, if_neg hother]
  have hanswer : answerResponse env config spelled = refuse env hostMissing := by
    rw [hsame spelled (equivalent_middle hheaders hrenamed), ← hlowered,
      hsame lowered (equivalent_lowered request)]
  have hspelled : AnsweredAsMissing env config line
      (HttpHeader.mk headerHost header'.content).content :=
    answeredAsMissing_of_answerResponse (show spelled.req = some line from hline) hversion hget
      hclose hanswer
  exact hspelled

/-- A header about the connection of such a request does not matter where a file is found. -/
theorem SameAnswers.connection (hsame : SameAnswers env config request)
    (hline : request.req = some line) (hversion : line.version ≠ .http11) {file : OpenedFile}
    (hfile : requestFile env config request line = some (.ok file)) :
    ConnectionIgnored request line := by
  intro header hheader hname
  obtain ⟨before, after, hheaders⟩ := List.append_of_mem hheader
  have hrenamed := (SameHeader.refl header).rename hname
  have hresponse {request' : HttpRequest} (h : Equivalent request request') :
      answerResponse env config request' =
        (closesConnection request' line).map (fileResponse env line file) := by
    rw [answerResponse_eq (h.1.trans hline), requestFile_of_version hversion, hfile]
    rfl
  have hlowered := hresponse (equivalent_lowered request)
  have hmiddle := hresponse (equivalent_middle hheaders hrenamed)
  rw [hsame _ (equivalent_lowered request), closesConnection_of_missing
    (httpHeaderListGet_lowered capital_headerConnection)] at hlowered
  rw [hsame _ (equivalent_middle hheaders hrenamed), hlowered] at hmiddle
  have hcloses := Option.map_injective (fileResponse_injective env line file) hmiddle
  have hget : httpHeaderListGet (before.map HttpHeader.lowered ++
      ⟨headerConnection, header.content⟩ :: after.map HttpHeader.lowered) headerConnection =
        some ⟨headerConnection, header.content⟩ := by
    rw [httpHeaderListGet_middle capital_headerConnection, if_pos rfl]
  rw [closesConnection_of_get hget] at hcloses
  obtain ⟨content, hcontent, hassumed⟩ := Option.map_eq_some_iff.mp hcloses.symm
  exact ⟨content, hcontent, closes_eq_assumed_iff.mp hassumed⟩

end

end Khttp
