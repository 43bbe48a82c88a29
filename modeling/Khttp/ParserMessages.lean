import Khttp.ParserGrammar

/-!
# The messages that the parser reports

Callbacks in order are those of messages, one behind the other, of which the last one may be
incomplete.
-/

namespace Khttp

open Lib

/-- A header line of which a part of the name is known. -/
def ParsedLine.ofField (text : Bytes) : ParsedLine := ⟨text, [], []⟩

namespace ParsedMessage

variable {m : ParsedMessage} {lines : List ParsedLine}

/-- Another line behind the others. -/
theorem lineCallbacks_ofField (m : ParsedMessage) (lines : List ParsedLine) (text : Bytes) :
    m.lineCallbacks (lines ++ [.ofField text]) =
      m.lineCallbacks lines ++ [.headerField m.major m.minor text] := by
  simp [lineCallbacks, ParsedLine.callbacks, ParsedLine.ofField]

/-- Another part of the value of the last line. -/
theorem exists_lineCallbacks_value (m : ParsedMessage) (hne : lines ≠ []) (text : Bytes) :
    ∃ lines', lines' ≠ [] ∧
      m.lineCallbacks lines' = m.lineCallbacks lines ++ [.headerValue text] := by
  obtain ⟨front, line, rfl⟩ := List.eq_nil_or_concat lines |>.resolve_left hne
  refine ⟨front ++ [{ line with values := line.values ++ [text] }], by simp, ?_⟩
  simp [lineCallbacks, ParsedLine.callbacks]

/-- The callbacks of a message up to the end of its header lines. -/
def toLines (m : ParsedMessage) : List ParserCallback :=
  .messageBegin :: (m.urlCallbacks ++ m.lineCallbacks m.headers)

/-- A message without a body, whose lines have changed. -/
def withLines (m : ParsedMessage) (version : ℕ × ℕ) (lines : List ParsedLine) : ParsedMessage where
  method := m.method
  url := m.url
  moreUrl := m.moreUrl
  major := version.1
  minor := version.2
  headers := lines
  bodies := []
  trailers := []
  trailers_nil _ := rfl

/-- A message without header lines. -/
theorem toLines_nil (m : ParsedMessage) (version : ℕ × ℕ) :
    (m.withLines version []).toLines = .messageBegin :: m.urlCallbacks := by
  simp [toLines, withLines, urlCallbacks, lineCallbacks]

/-- A message whose body or trailer has changed. -/
def withRest (m : ParsedMessage) (bodies : List Bytes) (trailers : List ParsedLine)
    (h : m.headers = [] → trailers = []) : ParsedMessage :=
  { m with bodies, trailers, trailers_nil := h }

end ParsedMessage

/-- The callbacks of a message of which so much has been reported. -/
def Reported.Builds (cs : List ParserCallback) : Reported → Prop
  | .nothing => cs = []
  | .begun => cs = [.messageBegin]
  | .target method => ∃ m : ParsedMessage, m.method = method ∧ cs = .messageBegin :: m.urlCallbacks
  | .field version | .value version => ∃ m : ParsedMessage, (m.major, m.minor) = version ∧
      m.headers ≠ [] ∧ cs = m.toLines
  | .header version | .body version => ∃ m : ParsedMessage,
      (∀ v, version = some v → v = (m.major, m.minor) ∧ m.headers ≠ []) ∧ m.trailers = [] ∧
        cs = m.toLines ++ m.rest
  | .footer version | .footerValue version => ∃ m : ParsedMessage, (m.major, m.minor) = version ∧
      m.headers ≠ [] ∧ m.trailers ≠ [] ∧ cs = m.toLines ++ m.rest

namespace Reported

variable {g g' : Reported} {cs : List ParserCallback} {cb : ParserCallback}

/-- Another part of a name. -/
theorem builds_field {m : ParsedMessage} {version : ℕ × ℕ} (hversion : (m.major, m.minor) = version)
    (text : Bytes) :
    (Reported.field version).Builds (m.toLines ++ [.headerField version.1 version.2 text]) := by
  subst hversion
  refine ⟨m.withLines (m.major, m.minor) (m.headers ++ [.ofField text]), rfl, ?_, ?_⟩
  · simp [ParsedMessage.withLines]
  · have hlines := m.lineCallbacks_ofField m.headers text
    change _ = .messageBegin :: (m.urlCallbacks ++ m.lineCallbacks (m.headers ++ [.ofField text]))
    rw [hlines, ParsedMessage.toLines, List.cons_append, List.append_assoc]

/-- Another part of a name behind the body. -/
theorem builds_footer {m : ParsedMessage} {version : ℕ × ℕ}
    (hversion : (m.major, m.minor) = version)
    (hne : m.headers ≠ []) (text : Bytes) :
    (Reported.footer version).Builds
      (m.toLines ++ m.rest ++ [.headerField version.1 version.2 text]) := by
  subst hversion
  refine ⟨m.withRest m.bodies (m.trailers ++ [.ofField text]) fun h => absurd h hne, rfl, hne,
    ?_, ?_⟩
  · simp [ParsedMessage.withRest]
  · have hlines := m.lineCallbacks_ofField m.trailers text
    change _ = m.toLines ++ (.headersComplete ::
      (m.bodies.map .body ++ m.lineCallbacks (m.trailers ++ [.ofField text])))
    rw [hlines, ParsedMessage.rest]
    simp

/-- **One callback.** It ends the message or is one more of its callbacks. -/
theorem Builds.report (h : g.Builds cs) (hreport : g.report cb = some g') :
    (g' = .nothing ∧ ∃ m : ParsedMessage, cs ++ [cb] = m.callbacks) ∨ g'.Builds (cs ++ [cb]) := by
  cases g with
  | nothing =>
    obtain rfl : cs = [] := h
    cases cb with
    | messageBegin =>
      obtain rfl := Option.some.inj hreport
      exact Or.inr rfl
    | _ => simp [Reported.report] at hreport
  | begun =>
    obtain rfl : cs = [.messageBegin] := h
    cases cb with
    | url method text =>
      obtain rfl := Option.some.inj hreport
      exact Or.inr ⟨⟨method, text, [], 0, 0, [], [], [], fun _ => rfl⟩, rfl, rfl⟩
    | _ => simp [Reported.report] at hreport
  | target method =>
    obtain ⟨m, rfl, rfl⟩ := h
    cases cb with
    | url method text =>
      obtain ⟨rfl, hsome⟩ := Option.ite_none_right_eq_some.mp hreport
      obtain rfl := Option.some.inj hsome
      refine Or.inr ⟨{ m with moreUrl := m.moreUrl ++ [text] }, rfl, ?_⟩
      simp [ParsedMessage.urlCallbacks]
    | headerField major minor text =>
      obtain rfl := Option.some.inj hreport
      have hbuilds : (Reported.field (major, minor)).Builds
          ((m.withLines (major, minor) []).toLines ++ [.headerField major minor text]) :=
        builds_field rfl text
      rw [ParsedMessage.toLines_nil] at hbuilds
      exact Or.inr hbuilds
    | headersComplete =>
      obtain rfl := Option.some.inj hreport
      refine Or.inr ⟨m.withLines (0, 0) [], by simp, rfl, ?_⟩
      rw [ParsedMessage.toLines_nil]
      rfl
    | _ => simp [Reported.report] at hreport
  | field version | value version =>
    obtain ⟨m, hversion, hne, rfl⟩ := h
    cases cb with
    | headerField major minor text =>
      obtain ⟨rfl, hsome⟩ := Option.ite_none_right_eq_some.mp hreport
      obtain rfl := Option.some.inj hsome
      exact Or.inr (builds_field hversion text)
    | headerValue text =>
      obtain rfl := Option.some.inj hreport
      obtain ⟨lines, hlines, hcallbacks⟩ := m.exists_lineCallbacks_value hne text
      refine Or.inr ⟨m.withLines (m.major, m.minor) lines, hversion, hlines, ?_⟩
      change _ = .messageBegin :: (m.urlCallbacks ++ m.lineCallbacks lines)
      rw [hcallbacks, ParsedMessage.toLines, List.cons_append, List.append_assoc]
    | headersComplete =>
      obtain rfl := Option.some.inj hreport
      refine Or.inr ⟨m.withLines (m.major, m.minor) m.headers, ?_, rfl, ?_⟩
      · intro v hv
        obtain rfl := Option.some.inj hv
        exact ⟨hversion.symm, hne⟩
      · rfl
    | _ => simp [Reported.report] at hreport
  | header version | body version =>
    obtain ⟨m, hversion, htrailers, rfl⟩ := h
    cases cb with
    | headerField major minor text =>
      cases version with
      | none => simp [Reported.report] at hreport
      | some version =>
        obtain ⟨hv, hne⟩ := hversion version rfl
        obtain ⟨rfl, hsome⟩ := Option.ite_none_right_eq_some.mp hreport
        obtain rfl := Option.some.inj hsome
        exact Or.inr (builds_footer hv.symm hne text)
    | body text =>
      obtain rfl := Option.some.inj hreport
      refine Or.inr ⟨m.withRest (m.bodies ++ [text]) [] fun _ => rfl, hversion, rfl, ?_⟩
      change _ = m.toLines ++ (.headersComplete :: ((m.bodies ++ [text]).map .body ++ []))
      simp [ParsedMessage.rest, htrailers, ParsedMessage.lineCallbacks]
    | messageComplete =>
      obtain rfl := Option.some.inj hreport
      refine Or.inl ⟨rfl, m, ?_⟩
      simp [ParsedMessage.toLines, ParsedMessage.callbacks]
    | _ => simp [Reported.report] at hreport
  | footer version | footerValue version =>
    obtain ⟨m, hversion, hne, htrailers, rfl⟩ := h
    cases cb with
    | headerField major minor text =>
      obtain ⟨rfl, hsome⟩ := Option.ite_none_right_eq_some.mp hreport
      obtain rfl := Option.some.inj hsome
      exact Or.inr (builds_footer hversion hne text)
    | headerValue text =>
      obtain rfl := Option.some.inj hreport
      obtain ⟨lines, hlines, hcallbacks⟩ := m.exists_lineCallbacks_value htrailers text
      refine Or.inr ⟨m.withRest m.bodies lines fun h => absurd h hne, hversion, hne, hlines, ?_⟩
      change _ = m.toLines ++ (.headersComplete :: (m.bodies.map .body ++ m.lineCallbacks lines))
      rw [hcallbacks, ParsedMessage.rest]
      simp
    | messageComplete =>
      obtain rfl := Option.some.inj hreport
      refine Or.inl ⟨rfl, m, ?_⟩
      simp [ParsedMessage.toLines, ParsedMessage.callbacks]
    | _ => simp [Reported.report] at hreport

/-- What has been reported of a message is a part of its callbacks. -/
theorem Builds.exists_prefix (h : g.Builds cs) : ∃ m : ParsedMessage, ∃ rest, rest ≠ [] ∧
    cs ++ rest = m.callbacks := by
  have hlines (m : ParsedMessage) (hbodies : m.bodies = []) (htrailers : m.trailers = []) :
      m.toLines ++ [.headersComplete, .messageComplete] = m.callbacks := by
    simp [ParsedMessage.callbacks, ParsedMessage.toLines, ParsedMessage.rest, hbodies, htrailers,
      ParsedMessage.lineCallbacks]
  have hrest (m : ParsedMessage) : m.toLines ++ m.rest ++ [.messageComplete] = m.callbacks := by
    simp [ParsedMessage.toLines, ParsedMessage.callbacks]
  cases g with
  | nothing =>
    obtain rfl : cs = [] := h
    let m : ParsedMessage := ⟨[], [], [], 0, 0, [], [], [], fun _ => rfl⟩
    exact ⟨m, m.callbacks, by simp [ParsedMessage.callbacks], rfl⟩
  | begun =>
    obtain rfl : cs = [.messageBegin] := h
    let m : ParsedMessage := ⟨[], [], [], 0, 0, [], [], [], fun _ => rfl⟩
    exact ⟨m, m.callbacks.tail,
      by simp [ParsedMessage.callbacks, ParsedMessage.urlCallbacks, m], rfl⟩
  | target method =>
    obtain ⟨m, _, rfl⟩ := h
    refine ⟨m.withLines (0, 0) [], [.headersComplete, .messageComplete], by simp, ?_⟩
    rw [← m.toLines_nil (0, 0)]
    exact hlines _ rfl rfl
  | field version | value version =>
    obtain ⟨m, _, _, rfl⟩ := h
    refine ⟨m.withLines (m.major, m.minor) m.headers, [.headersComplete, .messageComplete],
      by simp, ?_⟩
    exact hlines (m.withLines (m.major, m.minor) m.headers) rfl rfl
  | header version | body version =>
    obtain ⟨m, _, _, rfl⟩ := h
    exact ⟨m, [.messageComplete], by simp, hrest m⟩
  | footer version | footerValue version =>
    obtain ⟨m, _, _, _, rfl⟩ := h
    exact ⟨m, [.messageComplete], by simp, hrest m⟩

/-- **Callbacks in order** are those of messages, the last of which may be incomplete. -/
theorem messages_of_reportAll (h : Reported.nothing.reportAll cs = some g) :
    ∃ (messages : List ParsedMessage) (last : List ParserCallback),
      cs = messages.flatMap ParsedMessage.callbacks ++ last ∧ g.Builds last := by
  induction cs using List.reverseRecOn generalizing g with
  | nil =>
    obtain rfl := Option.some.inj h
    exact ⟨[], [], rfl, rfl⟩
  | append_singleton cs cb ih =>
    rw [reportAll_append] at h
    obtain ⟨g₀, hg₀, h⟩ := Option.bind_eq_some_iff.mp h
    rw [reportAll_cons] at h
    obtain ⟨g₁, hg₁, h⟩ := Option.bind_eq_some_iff.mp h
    obtain rfl := Option.some.inj h
    obtain ⟨messages, last, rfl, hbuilds⟩ := ih hg₀
    rcases hbuilds.report hg₁ with ⟨rfl, m, hm⟩ | hmore
    · refine ⟨messages ++ [m], [], ?_, rfl⟩
      simp [← hm]
    · exact ⟨messages, last ++ [cb], List.append_assoc _ _ _, hmore⟩

end Reported

/-- **Every stream.** The callbacks for its buffers are those of messages, one behind the other, of
which the last one may be incomplete. -/
theorem executeStream_messages {buffers : List Bytes} (hne : ∀ data ∈ buffers, data ≠ []) :
    ∃ cs result, (HttpParser.init.executeStream buffers).record 0 = some (cs, result) ∧
      ∃ (messages : List ParsedMessage) (last rest : List ParserCallback),
        cs = messages.flatMap ParsedMessage.callbacks ++ last ∧ rest ≠ [] ∧
          ∃ m : ParsedMessage, last ++ rest = m.callbacks := by
  have hinit : SameTexts ([] ++ HttpParser.init.opening.toList) [] := .refl []
  obtain ⟨cs, hcs, left, hsame, _⟩ := executeStream_agrees HttpParser.sound_init rfl hne hinit
  have hexpects : HttpParser.init.Expects .nothing := rfl
  obtain ⟨g, hg⟩ := ordered_steps hexpects buffers.flatten
  rw [List.nil_append, List.nil_append] at hsame
  rw [Reported.reportAll_sameTexts hsame, Reported.reportAll_append] at hg
  obtain ⟨g₀, hg₀, _⟩ := Option.bind_eq_some_iff.mp hg
  obtain ⟨messages, last, hmessages, hbuilds⟩ := Reported.messages_of_reportAll hg₀
  obtain ⟨m, rest, hrest, hlast⟩ := hbuilds.exists_prefix
  exact ⟨cs, _, hcs, messages, last, rest, hmessages, hrest, m, hlast⟩

/-- A request without header lines whose target comes in two buffers. -/
theorem executeStream_messages_target :
    ∃ cs result, (HttpParser.init.executeStream
        [ascii "GET /a", ascii "b HTTP/1.1\r\n\r\n"]).record 0 = some (cs, result) ∧
      ∃ (messages : List ParsedMessage) (last rest : List ParserCallback),
        cs = messages.flatMap ParsedMessage.callbacks ++ last ∧ rest ≠ [] ∧
          ∃ m : ParsedMessage, last ++ rest = m.callbacks :=
  executeStream_messages (by decide)

end Khttp
