import Khttp.RequestAssembly

/-!
# Interim responses

The read loop queues `100 Continue` behind each read that leaves a request of version 1.1 open
in or behind its header lines, whether or not one of them is `Expect`. How many of these a
client sees depends on how its bytes are cut into reads, the rest of what is handed on does
not.
-/

namespace Khttp

open Lib

/-- `on_header_field`. -/
def ParserCallback.isHeaderField : ParserCallback → Bool
  | .headerField _ _ _ => true
  | .messageBegin | .url _ _ | .headerValue _ | .headersComplete | .body _ | .messageComplete =>
    false

/-- A part of a message of version 1.1 reaches into its header lines or beyond, but is not all of
it. -/
def Message.isOpen (m : Message) (delivered : List ParserCallback) : Bool :=
  decide (m.minor = 1) && delivered.any ParserCallback.isHeaderField &&
    decide (delivered.length < m.callbacks.length)

/-- What has been delivered leaves one of the messages open. -/
def EndsInside (messages : List Message) (delivered : List ParserCallback) : Prop :=
  ∃ before m after part, messages = before ++ m :: after ∧
    delivered = before.flatMap Message.callbacks ++ part ∧ part <+: m.callbacks ∧
    m.isOpen part = true

/-- The header line in one fragment for its name and one for its value. -/
def HeaderLine.whole (line : HeaderLine) : HeaderLine :=
  ⟨(line.field :: line.moreField).flatMap cstr, [], (line.value :: line.moreValue).flatMap cstr, []⟩

/-- The message with its header lines in whole names and values. -/
def Message.whole (m : Message) : Message :=
  { m with headers := m.headers.map HeaderLine.whole, trailers := m.trailers.map HeaderLine.whole }

/-- What the interim responses of a run of reads are: at most one for a read, only where it leaves
a request of version 1.1 open, and always there if no message has a body and no read goes on
from one message into the next; nothing else depends on the reads. -/
structure InterimLaw (errorPage : Option Bytes) (messages : List Message)
    (actions : List ReadAction) : Prop where
  /-- No read hands on more than one, and only one that leaves a request open does. -/
  bounded : ∀ before a after s t, actions = before ++ a :: after →
    (readMachine errorPage).run before = some s → (readMachine errorPage).step s a = some t →
    (s.events t).count interim ≤ 1 ∧
      (interim ∈ s.events t → EndsInside messages (deliveries (before ++ [a])).flatten)
  /-- Every such read does, before the request is handed on. -/
  counted : (∀ m ∈ messages, m.bodies = []) → (∀ cbs ∈ deliveries actions, OneMessage cbs) →
    runEvents errorPage (readMachine errorPage).init actions =
      some (expectedEvents Message.isOpen messages (readEnds [] (deliveries actions)))
  /-- Apart from them the requests are handed on, however they are cut, within the names and values
  of their header lines too. -/
  others : (∀ m ∈ messages, m.bodies = []) → (∀ cbs ∈ deliveries actions, OneMessage cbs) →
    (runEvents errorPage (readMachine errorPage).init actions).map
        (·.filter (· ≠ interim)) =
      some (messages.flatMap fun m => m.whole.request.toList.map .request)

/-- The read loop looks at the version alone. -/
theorem sendsContinue_eq (s : ServerParseStatus) :
    sendsContinue s = decide (s.version = some .http11) := by
  unfold sendsContinue ServerParseStatus.version ServerParseStatus.line
  cases s.currentRequest.bind HttpRequest.req with
  | none => rfl
  | some line => simp

namespace ServerParseStatus

/-- A request of version 1.1 has got it from a header line behind its target. -/
theorem exists_field_of_version {s t : ServerParseStatus} {cbs : List ParserCallback}
    (hs : s.version ≠ some .http11) (h : s.execute cbs = some (t, true))
    (hversion : t.version = some .http11) :
    ∃ front fragment later, cbs = front ++ .headerField 1 1 fragment :: later ∧
      ∀ cb ∈ later, ¬ Starts cb := by
  induction cbs using List.reverseRecOn generalizing t with
  | nil =>
    obtain ⟨rfl, _⟩ := Prod.mk.inj (Option.some.inj h)
    exact absurd hversion hs
  | append_singleton cbs cb ih =>
    obtain ⟨u, hu, hlast⟩ := execute_initial h
    obtain ⟨v, hmove, hend⟩ := execute_cons_true hlast
    obtain ⟨rfl, _⟩ := Prod.mk.inj (Option.some.inj hend)
    have hkept (hcb : ¬ Starts cb) (hstate : u.parserHeaderState ≠ .hstateNone ∨
        ∀ major minor fragment, cb ≠ .headerField major minor fragment) :
        ∃ front fragment later, cbs ++ [cb] = front ++ .headerField 1 1 fragment :: later ∧
          ∀ cb ∈ later, ¬ Starts cb := by
      have hsame := (hmove.version_eq hcb hstate).1
      obtain ⟨front, fragment, later, rfl, hlater⟩ := ih hu (hsame ▸ hversion)
      refine ⟨front, fragment, later ++ [cb], by simp, ?_⟩
      intro other hother
      rcases List.mem_append.mp hother with hother | hother
      · exact hlater other hother
      · rwa [List.mem_singleton.mp hother]
    cases hmove with
    | messageBegin => simp [version, line, onMessageBegin, httpRequestNew] at hversion
    | url _ hline => simp [version, line, (httpRequestLineNew_eq hline).2] at hversion
    | @firstField major minor fragment known _ _ _ hknown _ _ =>
      obtain rfl : known = .http11 := by simpa [version, line] using hversion
      obtain ⟨rfl, rfl⟩ : major = 1 ∧ minor = 1 := by
        obtain ⟨hmajor, ⟨_, hold⟩ | ⟨hone, _⟩⟩ := requestVersion_eq hknown
        · simp at hold
        · exact ⟨hmajor, hone⟩
      exact ⟨cbs, fragment, [], rfl, by simp⟩
    | nextField hstate | laterField hstate | moreField hstate =>
      exact hkept id (Or.inl (by simp [hstate]))
    | headerValue | noHeader | headersComplete | body | messageComplete =>
      exact hkept id (Or.inr (by simp))

/-- The first header line behind the target brings the version, and no later one changes it. -/
theorem version_of_fields {s t : ServerParseStatus} {cbs : List ParserCallback}
    {known : HttpVersion} (hstate : s.parserHeaderState = .hstateNone)
    (hheader : s.parserCurrentHeader = none)
    (hordered : cbs.Pairwise fun c d => c.isHeaderField = true → ¬ Starts d)
    (hfields : ∀ major minor fragment, .headerField major minor fragment ∈ cbs →
      requestVersion major minor = some known)
    (hany : cbs.any ParserCallback.isHeaderField = true) (h : s.execute cbs = some (t, true)) :
    t.version = some known := by
  induction cbs generalizing s with
  | nil => simp at hany
  | cons cb cbs ih =>
    obtain ⟨hlater, hordered⟩ := List.pairwise_cons.mp hordered
    obtain ⟨u, hmove, hrest⟩ := execute_cons_true h
    have hnext (hnot : cb.isHeaderField = false) (hstate : u.parserHeaderState = .hstateNone)
        (hheader : u.parserCurrentHeader = none) : t.version = some known := by
      refine ih hstate hheader hordered (fun major minor fragment hmem =>
        hfields major minor fragment (by simp [hmem])) ?_ hrest
      simpa [hnot] using hany
    cases hmove with
    | @firstField major minor fragment version _ _ _ hversion _ _ =>
      obtain rfl := Option.some.inj ((hfields major minor fragment (by simp)).symm.trans hversion)
      rw [execute_version (fun d hd => hlater d hd rfl) (by simp) hrest]
      simp [ServerParseStatus.version, line]
    | nextField hvalue | laterField hvalue => simp [hstate] at hvalue
    | moreField hfield => simp [hstate] at hfield
    | headerValue hsome | headersComplete hsome => simp [hheader] at hsome
    | messageBegin | url | noHeader | body | messageComplete => exact hnext rfl hstate hheader

end ServerParseStatus

namespace Message

/-- The header lines of a message have its version, and its target comes before them. -/
theorem headerLines_spec {m : Message} {lines : List HeaderLine} {cb : ParserCallback}
    (h : cb ∈ lines.flatMap (HeaderLine.callbacks m.minor)) :
    ¬ ServerParseStatus.Starts cb ∧
      ∀ major minor fragment, cb = .headerField major minor fragment →
        major = 1 ∧ minor = m.minor := by
  obtain ⟨line, _, hcb⟩ := List.mem_flatMap.mp h
  rcases List.mem_append.mp hcb with hcb | hcb
  · obtain ⟨fragment, _, rfl⟩ := List.mem_map.mp hcb
    refine ⟨id, ?_⟩
    rintro major minor fragment' heq
    obtain ⟨rfl, rfl, _⟩ := ParserCallback.headerField.inj heq
    exact ⟨rfl, rfl⟩
  · obtain ⟨fragment, _, rfl⟩ := List.mem_map.mp hcb
    exact ⟨id, by simp⟩

/-- The callbacks of a message behind its target. -/
def behindTarget (m : Message) : List ParserCallback :=
  m.headers.flatMap (HeaderLine.callbacks m.minor) ++ [.headersComplete] ++ m.bodies.map .body ++
    m.trailers.flatMap (HeaderLine.callbacks m.minor) ++ [.messageComplete]

/-- A message begins with its target. -/
theorem callbacks_eq (m : Message) :
    m.callbacks = .messageBegin :: (m.url :: m.moreUrl).map (.url m.method) ++ m.behindTarget := by
  simp [callbacks, inner, behindTarget]

/-- Behind the target a message does not begin again, and its version is always the same. -/
theorem behindTarget_spec {m : Message} {cb : ParserCallback} (h : cb ∈ m.behindTarget) :
    ¬ ServerParseStatus.Starts cb ∧
      ∀ major minor fragment, cb = .headerField major minor fragment →
        major = 1 ∧ minor = m.minor := by
  simp only [behindTarget, List.mem_append, List.mem_singleton] at h
  rcases h with (((h | rfl) | h) | h) | rfl
  · exact headerLines_spec h
  · exact ⟨id, by simp⟩
  · obtain ⟨body, _, rfl⟩ := List.mem_map.mp h
    exact ⟨id, by simp⟩
  · exact headerLines_spec h
  · exact ⟨id, by simp⟩

/-- The version of a message is that of each of its header lines. -/
theorem minor_of_mem {m : Message} {major minor : ℕ} {fragment : Bytes}
    (h : .headerField major minor fragment ∈ m.callbacks) : major = 1 ∧ minor = m.minor := by
  rw [callbacks_eq, List.mem_append] at h
  rcases h with h | h
  · simp at h
  · exact (behindTarget_spec h).2 major minor fragment rfl

/-- Behind a header line of a message there is no target. -/
theorem ordered (m : Message) :
    m.callbacks.Pairwise fun c d => c.isHeaderField = true → ¬ ServerParseStatus.Starts d := by
  rw [callbacks_eq, List.pairwise_append]
  refine ⟨?_, ?_, ?_⟩
  · refine List.pairwise_cons.mpr
      ⟨fun d _ hfield => by simp [ParserCallback.isHeaderField] at hfield, ?_⟩
    rw [List.pairwise_map]
    exact List.pairwise_of_forall fun _ _ hfield => by simp [ParserCallback.isHeaderField] at hfield
  · exact List.pairwise_of_forall_mem_list fun _ _ d hd _ => (behindTarget_spec hd).1
  · exact fun _ _ d hd _ => (behindTarget_spec hd).1

/-- The read loop sends an interim response behind a part of a message exactly where the message
is open. -/
theorem isOpen_eq_sendsContinue {m : Message} {part : List ParserCallback} {u : ServerParseStatus}
    (hpre : part <+: m.callbacks) (hlt : part.length < m.callbacks.length)
    (hu : ServerParseStatus.new.execute part = some (u, true)) :
    m.isOpen part = sendsContinue u := by
  rw [sendsContinue_eq, Bool.eq_iff_iff, decide_eq_true_iff]
  constructor
  · intro hopen
    simp only [isOpen, Bool.and_eq_true, decide_eq_true_eq] at hopen
    obtain ⟨⟨hminor, hany⟩, _⟩ := hopen
    refine ServerParseStatus.version_of_fields rfl rfl (m.ordered.sublist hpre.sublist) ?_ hany hu
    intro major minor fragment hmem
    obtain ⟨rfl, rfl⟩ := minor_of_mem (hpre.subset hmem)
    rw [hminor]
    rfl
  · intro hversion
    obtain ⟨front, fragment, later, rfl, _⟩ :=
      ServerParseStatus.exists_field_of_version (by simp [ServerParseStatus.version,
        ServerParseStatus.line, ServerParseStatus.new]) hu hversion
    have hminor := (minor_of_mem (hpre.subset (by simp :
      .headerField 1 1 fragment ∈ front ++ .headerField 1 1 fragment :: later))).2
    simp only [isOpen, Bool.and_eq_true, decide_eq_true_eq]
    exact ⟨⟨hminor.symm, by simp [ParserCallback.isHeaderField]⟩, hlt⟩

/-- The messages are open where the read loop sends interim responses. -/
theorem sendsWhereOpen : SendsWhereOpen isOpen := by
  constructor
  · intro m
    simp [isOpen]
  · intro m part hle
    have hnot : ¬ part.length < m.callbacks.length := by omega
    simp [isOpen, hnot]
  · intro m part u _ hpre hlt hu
    exact isOpen_eq_sendsContinue hpre hlt hu

end Message

namespace ServerParseStatus

/-- Two fragments of a name are as good as one. -/
theorem execute_field_field {s : ServerParseStatus} {minor : ℕ} (hminor : minor ≤ 1)
    (first second : Bytes) (rest : List ParserCallback) :
    s.execute (.headerField 1 minor first :: .headerField 1 minor second :: rest) =
      s.execute (.headerField 1 minor (cstr first ++ cstr second) :: rest) := by
  obtain ⟨version, hversion⟩ := exists_requestVersion hminor
  rw [execute.eq_2, execute.eq_2]
  simp only [callback, onHeaderField]
  cases hstate : s.parserHeaderState with
  | hstateNone =>
    simp only [hversion, Option.bind_eq_bind]
    cases s.currentRequest with
    | none => rfl
    | some request =>
      cases hline : request.req with
      | none => simp [hline]
      | some line => simp [hline, execute, callback, onHeaderField, httpHeaderNew, cstr_cstr]
  | hstateValue =>
    cases hsaved : s.parserCurrentHeader.elim (some s) s.saveHeader with
    | none => simp
    | some t => simp [execute, callback, onHeaderField, httpHeaderNew, cstr_cstr]
  | hstateField =>
    cases hheader : s.parserCurrentHeader with
    | none => simp
    | some header => simp [execute, callback, onHeaderField]

/-- Two fragments of a value are as good as one. -/
theorem execute_value_value (s : ServerParseStatus) (first second : Bytes)
    (rest : List ParserCallback) :
    s.execute (.headerValue first :: .headerValue second :: rest) =
      s.execute (.headerValue (cstr first ++ cstr second) :: rest) := by
  rw [execute.eq_2, execute.eq_2]
  simp only [callback, onHeaderValue]
  cases s.parserCurrentHeader with
  | none => rfl
  | some header =>
    simp [execute, callback, onHeaderValue, httpHeaderAppendContent, cstr_cstr]

section

variable {report : Bytes → ParserCallback}

/-- Fragments that can be joined two by two are as good as one. -/
theorem execute_fragments
    (hone : ∀ (s : ServerParseStatus) fragment,
      s.callback (report (cstr fragment)) = s.callback (report fragment))
    (htwo : ∀ (s : ServerParseStatus) first second rest,
      s.execute (report first :: report second :: rest) =
        s.execute (report (cstr first ++ cstr second) :: rest))
    (s : ServerParseStatus) (first : Bytes) (more : List Bytes) (rest : List ParserCallback) :
    s.execute ((first :: more).map report ++ rest) =
      s.execute (report ((first :: more).flatMap cstr) :: rest) := by
  induction more generalizing first with
  | nil =>
    have hsame : s.execute (report (cstr first) :: rest) = s.execute (report first :: rest) := by
      rw [execute.eq_2, execute.eq_2, hone]
    simpa using hsame.symm
  | cons second more ih =>
    have hjoined := ih (cstr first ++ cstr second)
    simp only [List.map_cons, List.cons_append, List.flatMap_cons, cstr_append_cstr,
      List.append_assoc] at hjoined ⊢
    rw [htwo, hjoined]

end

/-- What comes behind some callbacks may be replaced by what does the same. -/
theorem execute_congr {later later' : List ParserCallback}
    (h : ∀ t : ServerParseStatus, t.execute later = t.execute later') (s : ServerParseStatus)
    (front : List ParserCallback) : s.execute (front ++ later) = s.execute (front ++ later') := by
  induction front generalizing s with
  | nil => exact h s
  | cons cb front ih =>
    rw [List.cons_append, List.cons_append, execute.eq_2, execute.eq_2]
    simp only [ih]

/-- A header line may as well come whole. -/
theorem execute_line {minor : ℕ} (hminor : minor ≤ 1) (line : HeaderLine)
    (rest : List ParserCallback) (s : ServerParseStatus) :
    s.execute (line.callbacks minor ++ rest) = s.execute (line.whole.callbacks minor ++ rest) := by
  have hname := @execute_fragments (.headerField 1 minor)
    (fun t fragment => by simp only [callback, onHeaderField, cstr_cstr])
    (fun t first second rest => execute_field_field hminor first second rest)
  have hvalue := @execute_fragments .headerValue
    (fun t fragment => by simp only [callback, onHeaderValue, cstr_cstr]) execute_value_value
  calc s.execute (line.callbacks minor ++ rest)
      = s.execute ([.headerField 1 minor line.whole.field] ++
          ((line.value :: line.moreValue).map .headerValue ++ rest)) := by
        rw [HeaderLine.callbacks, List.append_assoc, hname]
        rfl
    _ = s.execute ([.headerField 1 minor line.whole.field] ++
          (.headerValue line.whole.value :: rest)) :=
        execute_congr (fun t => hvalue t line.value line.moreValue rest) s _
    _ = s.execute (line.whole.callbacks minor ++ rest) := rfl

/-- Header lines may as well come whole. -/
theorem execute_lines {minor : ℕ} (hminor : minor ≤ 1) (lines : List HeaderLine)
    (rest : List ParserCallback) (s : ServerParseStatus) :
    s.execute (lines.flatMap (HeaderLine.callbacks minor) ++ rest) =
      s.execute ((lines.map HeaderLine.whole).flatMap (HeaderLine.callbacks minor) ++ rest) := by
  induction lines generalizing s with
  | nil => rfl
  | cons line lines ih =>
    rw [List.flatMap_cons, List.map_cons, List.flatMap_cons, List.append_assoc, List.append_assoc,
      execute_line hminor]
    exact execute_congr ih s _

end ServerParseStatus

/-- The request of a message is that of the whole message. -/
theorem Message.request_whole (m : Message) : m.whole.request = m.request := by
  have hbehind (t : ServerParseStatus) :
      t.execute m.behindTarget = t.execute m.whole.behindTarget := by
    simp only [behindTarget, List.append_assoc]
    rw [ServerParseStatus.execute_lines m.minor_le]
    refine ServerParseStatus.execute_congr (fun u => ?_) t _
    refine ServerParseStatus.execute_congr (fun u => ?_) u [.headersComplete]
    refine ServerParseStatus.execute_congr (fun u => ?_) u (m.bodies.map .body)
    exact ServerParseStatus.execute_lines m.minor_le m.trailers _ u
  have hall : ServerParseStatus.new.execute m.whole.callbacks =
      ServerParseStatus.new.execute m.callbacks := by
    rw [callbacks_eq, callbacks_eq]
    exact (ServerParseStatus.execute_congr hbehind .new _).symm
  rw [request, request, hall]

/-- Without a beginning of a message a request that is complete stays so. -/
theorem foldl_completeAfter {cbs : List ParserCallback} (h : .messageBegin ∉ cbs) :
    cbs.foldl ServerParseStatus.completeAfter true = true := by
  induction cbs with
  | nil => rfl
  | cons cb cbs ih =>
    have hrest := ih fun hmem => h (List.mem_cons_of_mem _ hmem)
    rw [List.foldl_cons]
    cases cb with
    | messageBegin => simp at h
    | _ => exact hrest

/-- The end of a message is its last callback. -/
theorem Message.messageComplete_mem {m : Message} {front later : List ParserCallback}
    {cb : ParserCallback} (h : m.callbacks = front ++ cb :: later) (hcb : cb ≠ .messageComplete) :
    .messageComplete ∈ later := by
  have hlast : m.callbacks.getLast? = some .messageComplete := List.getLast?_concat
  rw [h, List.getLast?_append_of_ne_nil _ (by simp), List.getLast?_cons] at hlast
  cases later with
  | nil => exact absurd (Option.some.inj hlast) (by simpa using hcb)
  | cons next later =>
    have hmem : (next :: later).getLast? = some .messageComplete := by
      simpa [List.getLast?_cons] using hlast
    exact List.mem_of_getLast? hmem

/-- A header line of version 1.1 behind which no message begins or ends leaves a message open. -/
theorem endsInside_of_field {messages : List Message} {front later : List ParserCallback}
    {fragment : Bytes} (hlater : ∀ cb ∈ later, ¬ ServerParseStatus.Starts cb)
    (hcomplete : .messageComplete ∉ later)
    (hpre : front ++ .headerField 1 1 fragment :: later <+: messages.flatMap Message.callbacks) :
    EndsInside messages (front ++ .headerField 1 1 fragment :: later) := by
  induction messages generalizing front with
  | nil => simp at hpre
  | cons m rest ih =>
    rw [List.flatMap_cons] at hpre
    rcases Nat.lt_or_ge (front ++ .headerField 1 1 fragment :: later).length m.callbacks.length
      with hlt | hge
    · have hinside := List.prefix_of_prefix_length_le hpre (List.prefix_append _ _) hlt.le
      have hmem : .headerField 1 1 fragment ∈ front ++ .headerField 1 1 fragment :: later := by
        simp
      have hminor := (Message.minor_of_mem (hinside.subset hmem)).2
      refine ⟨[], m, rest, _, rfl, rfl, hinside, ?_⟩
      simp only [Message.isOpen, Bool.and_eq_true, decide_eq_true_eq]
      exact ⟨⟨hminor.symm, by simp [ParserCallback.isHeaderField]⟩, hlt⟩
    · obtain ⟨next, hnext⟩ := List.prefix_of_prefix_length_le (List.prefix_append _ _) hpre hge
      have hshift (front' : List ParserCallback) (hfront : front = m.callbacks ++ front') :
          EndsInside (m :: rest) (front ++ .headerField 1 1 fragment :: later) := by
        rw [hfront, List.append_assoc, List.prefix_append_right_inj] at hpre
        obtain ⟨before, m', after, part, rfl, hpart, hprefix, hopen⟩ := ih hpre
        refine ⟨m :: before, m', after, part, rfl, ?_, hprefix, hopen⟩
        rw [List.flatMap_cons, List.append_assoc, ← hpart, hfront, List.append_assoc]
      rcases List.append_eq_append_iff.mp hnext with ⟨front', hfront, _⟩ | ⟨cut, hcut, hrest⟩
      · exact hshift front' hfront
      · cases cut with
        | nil => exact hshift [] (by rw [hcut, List.append_nil, List.append_nil])
        | cons cb cut =>
          obtain ⟨rfl, rfl⟩ := List.cons.inj hrest
          have hmem := Message.messageComplete_mem hcut (by simp)
          exact absurd (List.mem_append_left _ hmem) hcomplete

section

variable {errorPage : Option Bytes}

/-- The parse status is what the callbacks since some point lead to, and no request is complete in
it. -/
def Records (s : ReadRun) (delivered : List ParserCallback) : Prop :=
  ∃ front since, delivered = front ++ since ∧
    ServerParseStatus.new.execute since = some (s.conn.parseState, true) ∧
    s.conn.parseState.requestComplete = false

/-- A status that records the callbacks of messages and sends an interim response leaves one of
them open. -/
theorem Records.endsInside {s : ReadRun} {delivered : List ParserCallback} {messages : List Message}
    (h : Records s delivered) (hpre : delivered <+: messages.flatMap Message.callbacks)
    (hsends : sendsContinue s.conn.parseState = true) : EndsInside messages delivered := by
  obtain ⟨front, since, rfl, hsince, hincomplete⟩ := h
  rw [sendsContinue_eq, decide_eq_true_iff] at hsends
  obtain ⟨before, fragment, later, rfl, hlater⟩ :=
    ServerParseStatus.exists_field_of_version (by simp [ServerParseStatus.version,
      ServerParseStatus.line, ServerParseStatus.new]) hsince hsends
  have hversion (major minor : ℕ) (fragment' : Bytes)
      (hmem : .headerField major minor fragment' ∈ before ++ .headerField 1 1 fragment :: later) :
      major = 1 ∧ minor ≤ 1 :=
    Message.version_callbacks (hpre.subset (List.mem_append_right _ hmem))
  have hflag := (ServerParseStatus.execute_spec .new hversion hsince).1
  have hcomplete : .messageComplete ∉ later := by
    intro hmem
    obtain ⟨later', others, rfl⟩ := List.append_of_mem hmem
    have hbegin : .messageBegin ∉ others := fun hmem' =>
      hlater .messageBegin (by simp [hmem']) trivial
    rw [hincomplete, List.foldl_append, List.foldl_cons, List.foldl_append, List.foldl_cons,
      ServerParseStatus.completeAfter.eq_2, foldl_completeAfter hbegin] at hflag
    simp at hflag
  rw [← List.append_assoc] at hpre ⊢
  exact endsInside_of_field hlater hcomplete hpre

/-- A step records what it delivers, and hands on at most an interim response, or a request. -/
theorem Records.step {s t : ReadRun} {a : ReadAction} {delivered : List ParserCallback}
    {messages : List Message} (h : Records s delivered) (haccepted : Accepted [a])
    (hpre : delivered ++ (deliveries [a]).flatten <+: messages.flatMap Message.callbacks)
    (hstep : (readMachine errorPage).step s a = some t) :
    Records t (delivered ++ (deliveries [a]).flatten) ∧ (s.events t).count interim ≤ 1 ∧
      (interim ∈ s.events t → sendsContinue t.conn.parseState = true) := by
  cases hrun : a.run with
  | none =>
    obtain ⟨u, hu, hkept, _, hevents⟩ := @step_of_run_none errorPage s a hrun
    obtain rfl := Option.some.inj (hstep.symm.trans hu)
    have hnone : deliveries [a] = [] := by simp [deliveries, hrun]
    obtain ⟨front, since, hdelivered, hsince, hincomplete⟩ := h
    refine ⟨⟨front, since, ?_, hkept ▸ hsince, hkept ▸ hincomplete⟩, by simp [hevents],
      by simp [hevents]⟩
    rw [hnone, List.flatten_nil, List.append_nil, hdelivered]
  | some run =>
    obtain ⟨hupgrade, hparsed⟩ := haccepted run (by simp [hrun])
    obtain rfl := eq_of_run_eq_some hrun
    have hone : (deliveries [.read (.data run)]).flatten = run.callbacks := by
      simp [deliveries, hrun]
    rw [hone] at hpre ⊢
    obtain ⟨front, since, rfl, hsince, hincomplete⟩ := h
    obtain ⟨pass, hpass, _⟩ := Option.map_eq_some_iff.mp hstep
    obtain ⟨⟨u, ok⟩, hexecute, hdata⟩ := Option.bind_eq_some_iff.mp hpass
    have hversion (major minor : ℕ) (fragment : Bytes)
        (hmem : .headerField major minor fragment ∈ since ++ run.callbacks) :
        major = 1 ∧ minor ≤ 1 :=
      Message.version_callbacks (hpre.subset (by
        rw [List.append_assoc]
        exact List.mem_append_right _ hmem))
    have hall : ServerParseStatus.new.execute (since ++ run.callbacks) = some (u, ok) := by
      rw [ServerParseStatus.execute_append hsince, hexecute]
    obtain ⟨_, _, rfl, _⟩ := ServerParseStatus.execute_spec .new hversion hall
    cases hcomplete : u.requestComplete with
    | false =>
      obtain ⟨w, hw, _, hkept, hevents⟩ :=
        @read_waits errorPage s run u hexecute hcomplete hupgrade hparsed
      obtain rfl := Option.some.inj (hstep.symm.trans hw)
      refine ⟨⟨front, since ++ run.callbacks, List.append_assoc _ _ _, hkept ▸ hall,
        hkept ▸ hcomplete⟩, ?_, ?_⟩
      · rw [hevents]
        split <;> simp
      · rw [hevents, hkept]
        split
        · next hsends => exact fun _ => hsends
        · simp
    | true =>
      rcases readData_parsed hupgrade hparsed hdata with ⟨_, request, hrequest, _⟩ | ⟨hfalse, _⟩
      · obtain ⟨w, hw, _, hnew, hevents⟩ :=
          @read_completes errorPage s run u request hexecute hcomplete hrequest hupgrade hparsed
        obtain rfl := Option.some.inj (hstep.symm.trans hw)
        refine ⟨⟨front ++ since ++ run.callbacks, [], (List.append_nil _).symm, by rw [hnew]; rfl,
          by rw [hnew]; rfl⟩, ?_, ?_⟩
        · rw [hevents]
          exact List.count_le_length
        · rw [hevents]
          simp [interim]
      · exact absurd (hcomplete.symm.trans hfalse) (by simp)

/-- **Run lemma.** Reads of messages are recorded. -/
theorem records_run {s t : ReadRun} {actions : List ReadAction} {delivered : List ParserCallback}
    {messages : List Message} (h : Records s delivered) (haccepted : Accepted actions)
    (hpre : delivered ++ (deliveries actions).flatten <+: messages.flatMap Message.callbacks)
    (hrun : (readMachine errorPage).runFrom s actions = some t) :
    Records t (delivered ++ (deliveries actions).flatten) := by
  induction actions generalizing s delivered with
  | nil =>
    obtain rfl : s = t := by simpa using hrun
    simpa [deliveries] using h
  | cons a actions ih =>
    obtain ⟨u, hu, hrest⟩ := (Machine.runFrom_cons _).mp hrun
    have hcut : deliveries (a :: actions) = deliveries [a] ++ deliveries actions := by
      rw [deliveries_cons, deliveries_cons]
      simp [deliveries]
    rw [hcut, List.flatten_append, ← List.append_assoc] at hpre ⊢
    have hfirst : Accepted [a] := fun run hmem => haccepted run (by
      cases hrun : a.run <;> simp_all)
    have hothers : Accepted actions := fun run hmem => haccepted run (by
      cases hrun : a.run <;> simp [hrun, hmem])
    have hstep := h.step hfirst ((List.prefix_append _ _).trans hpre) hu
    exact ih hstep.1 hothers hpre hrest

/-- The events of messages apart from the interim responses. -/
theorem filter_expectedEvents (isOpen : Message → List ParserCallback → Bool)
    (messages : List Message) (ends : List (List ParserCallback)) :
    (expectedEvents isOpen messages ends).filter (· ≠ interim) =
      messages.flatMap fun m => m.request.toList.map .request := by
  induction messages generalizing ends with
  | nil => rfl
  | cons m rest ih =>
    have hinterim (n : ℕ) : (List.replicate n interim).filter (· ≠ interim) = [] := by simp
    have hown : (m.request.toList.map ReadEvent.request).filter (· ≠ interim) =
        m.request.toList.map .request := by
      rw [List.filter_eq_self]
      intro event hevent
      obtain ⟨request, _, rfl⟩ := List.mem_map.mp hevent
      simp [interim]
    rw [expectedEvents, List.filter_append, List.filter_append, hinterim, hown, ih,
      List.nil_append, List.flatMap_cons]

/-- **Interim responses.** Whatever messages are delivered in reads that the parser accepts, an
interim response is queued at most once behind a read and only where it leaves a request of
version 1.1 open; where no message has a body and no read goes on from one message into the
next, it is queued behind each such read, before the request is handed on, and apart from these
responses the reads make no difference. -/
theorem interimLaw {messages : List Message} {actions : List ReadAction}
    (haccepted : Accepted actions)
    (hdelivered : (deliveries actions).flatten = messages.flatMap Message.callbacks) :
    InterimLaw errorPage messages actions := by
  have hcounted (hbodies : ∀ m ∈ messages, m.bodies = [])
      (hone : ∀ cbs ∈ deliveries actions, OneMessage cbs) :
      runEvents errorPage (readMachine errorPage).init actions =
        some (expectedEvents Message.isOpen messages (readEnds [] (deliveries actions))) := by
    exact run_events Message.sendsWhereOpen haccepted hbodies hone (partial_nil messages)
      hdelivered rfl
  refine ⟨?_, hcounted, ?_⟩
  · rintro before a after s t rfl hrun hstep
    have hcut : deliveries (before ++ a :: after) =
        deliveries before ++ deliveries [a] ++ deliveries after := by
      rw [deliveries_append, deliveries_cons, deliveries_cons]
      simp [deliveries]
    have hpre : (deliveries before).flatten ++ (deliveries [a]).flatten <+:
        messages.flatMap Message.callbacks := by
      rw [← hdelivered, hcut, List.flatten_append, List.flatten_append]
      exact List.prefix_append _ _
    have hbefore : Accepted before := fun run hmem => haccepted run (by
      rw [List.filterMap_append]
      exact List.mem_append_left _ hmem)
    have hlast : Accepted [a] := fun run hmem => haccepted run (by
      rw [List.append_cons, List.filterMap_append, List.filterMap_append]
      exact List.mem_append_left _ (List.mem_append_right _ hmem))
    have hnew : Records (readMachine errorPage).init [] := ⟨[], [], rfl, rfl, rfl⟩
    have hrecords := records_run hnew hbefore ((List.prefix_append _ _).trans hpre) hrun
    obtain ⟨hrecords', hcount, hsends⟩ := hrecords.step hlast hpre hstep
    refine ⟨hcount, fun hmem => ?_⟩
    rw [deliveries_append, List.flatten_append]
    exact hrecords'.endsInside hpre (hsends hmem)
  · intro hbodies hone
    rw [hcounted hbodies hone, Option.map_some, filter_expectedEvents]
    simp only [Message.request_whole]

end

/-- The header line is `Expect: 100-continue`. -/
def HeaderLine.expects (line : HeaderLine) : Bool :=
  strcaseeq (ascii "Expect") (line.field ++ line.moreField.flatten) &&
    strcaseeq (ascii "100-continue") (line.value ++ line.moreValue.flatten)

/-- The request asks for an interim response. -/
def Message.expects (m : Message) : Bool := m.headers.any HeaderLine.expects

/-- Interim responses as a client may expect them: only to requests that ask for one, at most one
to each of them, and independent of the reads. -/
structure InterimOnDemand (errorPage : Option Bytes) (messages : List Message) : Prop where
  /-- There are no more of them than requests that ask. -/
  asked : ∀ actions events, Accepted actions →
    (deliveries actions).flatten = messages.flatMap Message.callbacks →
    runEvents errorPage (readMachine errorPage).init actions = some events →
    events.count interim ≤ messages.countP Message.expects
  /-- The same bytes are answered by the same events. -/
  unsplit : ∀ actions actions', Accepted actions → Accepted actions' →
    (deliveries actions).flatten = messages.flatMap Message.callbacks →
    (deliveries actions').flatten = messages.flatMap Message.callbacks →
    runEvents errorPage (readMachine errorPage).init actions =
      runEvents errorPage (readMachine errorPage).init actions'

/-- A request of version 1.1 with the one header line that this version asks for. -/
def hostGet : Message :=
  { plainGet with headers := [⟨ascii "Host", [], ascii "localhost", []⟩] }

/-- The request in three reads, of which the first two end in its header lines. -/
def hostReads : List ReadAction :=
  [acceptedRead (hostGet.callbacks.take 3), acceptedRead ((hostGet.callbacks.drop 3).take 1),
    acceptedRead (hostGet.callbacks.drop 4)]

/-- In three reads the request draws two interim responses, in a single one it draws none. -/
theorem interimLaw_hostReads :
    InterimLaw none [hostGet] hostReads ∧
      runEvents none (readMachine none).init hostReads =
        some (interim :: interim :: hostGet.request.toList.map .request) := by
  have hlaw : InterimLaw none [hostGet] hostReads := interimLaw (by decide) (by decide)
  refine ⟨hlaw, ?_⟩
  rw [hlaw.counted (by decide) (by decide)]
  rfl

/-- The request does not ask for an interim response, and the reads decide how many it draws. -/
theorem not_interimOnDemand : ¬InterimOnDemand none [hostGet] := by
  intro h
  have htwo : (runEvents none (readMachine none).init hostReads).map (·.count interim) =
      some 2 := by decide
  obtain ⟨events, hevents, hcount⟩ := Option.map_eq_some_iff.mp htwo
  have hle := h.asked hostReads events (by decide) (by decide) hevents
  have hnone : [hostGet].countP Message.expects = 0 := by decide
  omega

end Khttp
