import Khttp.HttpServer
import Khttp.Messages

/-!
# The header lines and the stored headers

A name that follows a value begins a new header and a name that follows a name continues it, so
a header line without a value lends its name to the next one. The last header line is stored
when the header ends; behind the body nothing stores the last one.
-/

namespace Khttp

open Lib

/-- What a name is continued to by more of it. -/
def continued (pending : Option Bytes) (name : Bytes) : Bytes := pending.getD [] ++ name

/-- The headers that header lines make, in a status that holds a name without a value or none. -/
def assembled : Option Bytes → List ParsedLine → List HttpHeader
  | none, [] => []
  | some name, [] => [⟨name, none⟩]
  | pending, line :: lines =>
    if line.values = [] then assembled (some (continued pending line.name)) lines
    else ⟨continued pending line.name, some (line.values.flatMap cstr)⟩ :: assembled none lines

/-- A first header line lends its name to the others, or makes a header. -/
theorem assembled_cons (pending : Option Bytes) (line : ParsedLine) (lines : List ParsedLine) :
    assembled pending (line :: lines) =
      if line.values = [] then assembled (some (continued pending line.name)) lines
      else ⟨continued pending line.name, some (line.values.flatMap cstr)⟩ ::
        assembled none lines := by
  cases pending <;> rfl

/-- A header line makes a header, of its own or with others. -/
theorem assembled_cons_ne_nil (pending : Option Bytes) (line : ParsedLine)
    (lines : List ParsedLine) : assembled pending (line :: lines) ≠ [] := by
  induction lines generalizing pending line with
  | nil =>
    rw [assembled_cons]
    split <;> simp [assembled]
  | cons next lines ih =>
    rw [assembled_cons]
    split
    · exact ih _ next
    · simp

/-- The name that header lines leave without a value. -/
def leftPending : Option Bytes → List ParsedLine → Option Bytes
  | pending, [] => pending
  | pending, line :: lines =>
    leftPending (if line.values = [] then some (continued pending line.name) else none) lines

/-- The header that is stored where a name has waited in vain. -/
def waiting (pending : Option Bytes) : List HttpHeader :=
  (pending.map fun name => ⟨name, none⟩).toList

/-- The name of a header line is a nonempty text, as the parser's tokens are. -/
def ParsedLine.Named (line : ParsedLine) : Prop := line.name ≠ [] ∧ 0 ∉ line.name

instance (line : ParsedLine) : Decidable line.Named := instDecidableAnd

/-- The headers have a content each, and the names of the first header lines. -/
def Kept (headers : List HttpHeader) (lines : List ParsedLine) : Prop :=
  (∀ header ∈ headers, header.content ≠ none) ∧
    headers.map HttpHeader.name <+: lines.map ParsedLine.name

/-- No header at all is kept. -/
theorem Kept.nil (lines : List ParsedLine) : Kept [] lines := ⟨by simp, List.nil_prefix⟩

/-- The first headers of those that are kept are kept. -/
theorem Kept.initial {headers first : List HttpHeader} {lines : List ParsedLine}
    (h : Kept headers lines) (hpre : first <+: headers) : Kept first lines :=
  ⟨fun header hmem => h.1 header (hpre.subset hmem), (hpre.map _).trans h.2⟩

/-- A first header and a first header line. -/
theorem kept_cons_iff {header : HttpHeader} {headers : List HttpHeader} {line : ParsedLine}
    {lines : List ParsedLine} :
    Kept (header :: headers) (line :: lines) ↔
      header.content ≠ none ∧ header.name = line.name ∧ Kept headers lines := by
  unfold Kept
  rw [List.map_cons, List.map_cons, List.cons_prefix_cons, List.forall_mem_cons]
  constructor
  · rintro ⟨⟨hcontent, hall⟩, hname, hpre⟩
    exact ⟨hcontent, hname, hall, hpre⟩
  · rintro ⟨hcontent, hname, hall, hpre⟩
    exact ⟨⟨hcontent, hall⟩, hname, hpre⟩

/-- A name that waits is made longer by further header lines. -/
theorem exists_assembled_some (name : Bytes) {lines : List ParsedLine}
    (hnamed : ∀ line ∈ lines, line.Named) :
    ∃ header headers, assembled (some name) lines = header :: headers ∧
      name.length ≤ header.name.length ∧ (lines ≠ [] → name.length < header.name.length) ∧
      (headers = [] ↔ ∀ line ∈ lines.dropLast, line.values = []) ∧
      (lines = [] → header.content = none) := by
  induction lines generalizing name with
  | nil => exact ⟨⟨name, none⟩, [], rfl, le_rfl, by simp, by simp, fun _ => rfl⟩
  | cons line lines ih =>
    have hpositive : 0 < line.name.length :=
      List.length_pos_iff.mpr (hnamed line (by simp)).1
    have hlength : (continued (some name) line.name).length = name.length + line.name.length := by
      simp [continued]
    rw [assembled_cons]
    by_cases hvalues : line.values = []
    · rw [if_pos hvalues]
      obtain ⟨header, headers, hheaders, hle, _, htail, _⟩ :=
        ih (continued (some name) line.name) fun line' hmem => hnamed line' (by simp [hmem])
      refine ⟨header, headers, hheaders, by omega, fun _ => by omega, ?_, by simp⟩
      rw [htail]
      cases lines with
      | nil => simp
      | cons next lines => simp [hvalues]
    · rw [if_neg hvalues]
      refine ⟨_, _, rfl, by simp [continued], fun _ => ?_, ?_, by simp⟩
      · change name.length < (continued (some name) line.name).length
        omega
      · cases lines with
        | nil => simp [assembled]
        | cons next lines =>
          have hfirst : ¬∀ line' ∈ (line :: next :: lines).dropLast, line'.values = [] :=
            fun hall => hvalues (hall line (by simp))
          exact iff_of_false (assembled_cons_ne_nil none next lines) hfirst

/-- Header lines make headers that are kept exactly where all of them have values. -/
theorem kept_assembled_iff {lines : List ParsedLine} (hnamed : ∀ line ∈ lines, line.Named)
    (more : List ParsedLine) :
    Kept (assembled none lines) (lines ++ more) ↔ ∀ line ∈ lines, line.values ≠ [] := by
  induction lines with
  | nil => exact ⟨fun _ => by simp, fun _ => Kept.nil _⟩
  | cons line lines ih =>
    have hrest (line' : ParsedLine) (hmem : line' ∈ lines) : line'.Named :=
      hnamed line' (by simp [hmem])
    rw [assembled_cons, List.forall_mem_cons, List.cons_append]
    by_cases hvalues : line.values = []
    · rw [if_pos hvalues]
      obtain ⟨header, headers, hheaders, _, hlt, _, hnone⟩ :=
        exists_assembled_some (continued none line.name) hrest
      rw [hheaders, kept_cons_iff]
      constructor
      · rintro ⟨hcontent, hname, _⟩
        by_cases hnil : lines = []
        · exact absurd (hnone hnil) hcontent
        · have hlonger := hlt hnil
          rw [hname] at hlonger
          simp [continued] at hlonger
      · rintro ⟨hne, _⟩
        exact absurd hvalues hne
    · rw [if_neg hvalues, kept_cons_iff, ih hrest]
      simp [continued, hvalues]

/-- Behind header lines that all have values, what follows is kept by itself. -/
theorem kept_append_iff {lines : List ParsedLine} (hvalues : ∀ line ∈ lines, line.values ≠ [])
    {headers : List HttpHeader} {more : List ParsedLine} :
    Kept (assembled none lines ++ headers) (lines ++ more) ↔ Kept headers more := by
  induction lines with
  | nil => rfl
  | cons line lines ih =>
    rw [assembled_cons, if_neg (hvalues line (by simp)), List.cons_append, List.cons_append,
      kept_cons_iff, ih fun line' hmem => hvalues line' (by simp [hmem])]
    simp [continued]

/-- Header lines that all have values leave no name waiting. -/
theorem leftPending_of_values {lines : List ParsedLine}
    (hvalues : ∀ line ∈ lines, line.values ≠ []) : leftPending none lines = none := by
  induction lines with
  | nil => rfl
  | cons line lines ih =>
    rw [leftPending, if_neg (hvalues line (by simp))]
    exact ih fun line' hmem => hvalues line' (by simp [hmem])

/-- Of the headers that header lines make all but the last are kept exactly where no header line
without a value comes before another one that has a value and is not the last. -/
theorem kept_dropLast_assembled_iff {lines : List ParsedLine}
    (hnamed : ∀ line ∈ lines, line.Named) :
    Kept (assembled none lines).dropLast lines ↔
      lines.dropLast.Pairwise fun earlier later => later.values ≠ [] → earlier.values ≠ [] := by
  induction lines with
  | nil => exact ⟨fun _ => by simp, fun _ => Kept.nil _⟩
  | cons line lines ih =>
    have hrest (line' : ParsedLine) (hmem : line' ∈ lines) : line'.Named :=
      hnamed line' (by simp [hmem])
    rw [assembled_cons]
    cases lines with
    | nil =>
      have hlast : (if line.values = [] then assembled (some (continued none line.name)) []
          else ⟨continued none line.name, some (line.values.flatMap cstr)⟩ ::
            assembled none []).dropLast = [] := by
        split <;> simp [assembled]
      rw [hlast]
      exact iff_of_true (Kept.nil _) (by simp)
    | cons next lines =>
      rw [List.dropLast_cons_cons, List.pairwise_cons]
      by_cases hvalues : line.values = []
      · obtain ⟨header, headers, hheaders, _, hlt, htail, _⟩ :=
          exists_assembled_some (continued none line.name) hrest
        rw [if_pos hvalues, hheaders]
        have hlater : headers = [] ↔
            (∀ later ∈ (next :: lines).dropLast, later.values ≠ [] → line.values ≠ []) ∧
              (next :: lines).dropLast.Pairwise fun earlier later =>
                later.values ≠ [] → earlier.values ≠ [] := by
          rw [htail]
          constructor
          · intro hall
            refine ⟨fun later hmem hne => absurd (hall later hmem) hne, ?_⟩
            rw [List.pairwise_iff_forall_sublist]
            intro earlier later hsub hne
            exact absurd (hall later (hsub.subset (by simp))) hne
          · rintro ⟨hall, _⟩ later hmem
            by_contra hne
            exact hall later hmem hne hvalues
        rw [← hlater]
        constructor
        · intro hkept
          by_contra hne
          rw [List.dropLast_cons_of_ne_nil hne, kept_cons_iff] at hkept
          have hlonger := hlt (by simp)
          rw [hkept.2.1] at hlonger
          simp [continued] at hlonger
        · rintro rfl
          exact Kept.nil _
      · rw [if_neg hvalues, List.dropLast_cons_of_ne_nil (assembled_cons_ne_nil none next lines),
          kept_cons_iff, ih hrest]
        simp [continued, hvalues]

namespace ServerParseStatus

/-- Between two callbacks of header lines: the headers made so far, stored or about to be, and
the name that waits for a value. -/
inductive Collects (s : ServerParseStatus) (headers : List HttpHeader) : Option Bytes → Prop
  /-- No header line has been seen. -/
  | begun {request : HttpRequest} {line : HttpRequestLine}
      (hrequest : s.currentRequest = some request) (hline : request.req = some line)
      (hstate : s.parserHeaderState = .hstateNone) (hcurrent : s.parserCurrentHeader = none)
      (hstored : request.headers = headers) : Collects s headers none
  /-- The last callback was about a value. -/
  | valued {request : HttpRequest} (hrequest : s.currentRequest = some request)
      (hstate : s.parserHeaderState = .hstateValue)
      (hstored : request.headers ++ s.parserCurrentHeader.toList = headers) :
      Collects s headers none
  /-- The last callback was about a name. -/
  | named {request : HttpRequest} {name : Bytes} (hrequest : s.currentRequest = some request)
      (hstate : s.parserHeaderState = .hstateField)
      (hcurrent : s.parserCurrentHeader = some ⟨name, none⟩) (hnul : 0 ∉ name)
      (hstored : request.headers = headers) : Collects s headers (some name)

/-- A fragment of a name begins a header or continues the one that waits. -/
theorem Collects.field {s : ServerParseStatus} {headers : List HttpHeader}
    {pending : Option Bytes} (h : s.Collects headers pending) {major minor : ℕ}
    (hversion : requestVersion major minor ≠ none) {fragment : Bytes} (hnul : 0 ∉ fragment) :
    ∃ t, s.callback (.headerField major minor fragment) = some (t, 0) ∧
      t.Collects headers (some (continued pending fragment)) := by
  have hcstr := cstr_of_zero_notMem hnul
  have hnew : some (httpHeaderNew (cstr fragment) none) = some ⟨continued none fragment, none⟩ := by
    simp [httpHeaderNew, continued, hcstr]
  cases h with
  | begun hrequest hline hstate hcurrent hstored =>
    obtain ⟨version, hversion⟩ := Option.ne_none_iff_exists'.mp hversion
    simp only [callback, onHeaderField, hstate, hversion, hrequest, hline, Option.bind_eq_bind,
      Option.bind_some]
    exact ⟨_, rfl, .named rfl rfl hnew hnul hstored⟩
  | valued hrequest hstate hstored =>
    cases hcurrent : s.parserCurrentHeader with
    | none =>
      rw [hcurrent, Option.toList_none, List.append_nil] at hstored
      simp only [callback, onHeaderField, hstate, hcurrent, Option.elim_none, Option.bind_eq_bind,
        Option.bind_some]
      exact ⟨_, rfl, .named hrequest rfl hnew hnul hstored⟩
    | some header =>
      rw [hcurrent, Option.toList_some] at hstored
      simp only [callback, onHeaderField, hstate, hcurrent, Option.elim_some, saveHeader, hrequest,
        Option.map_some, Option.bind_eq_bind, Option.bind_some]
      exact ⟨_, rfl, .named rfl rfl hnew hnul hstored⟩
  | @named request name hrequest hstate hcurrent hname hstored =>
    have hmore : some { (⟨name, none⟩ : HttpHeader) with name := cstr name ++ cstr fragment } =
        some ⟨continued (some name) fragment, none⟩ := by
      simp [continued, hcstr, cstr_of_zero_notMem hname]
    simp only [callback, onHeaderField, hstate, hcurrent, Option.bind_eq_bind, Option.bind_some]
    exact ⟨_, rfl, .named hrequest rfl hmore (by simp [continued, hname, hnul]) hstored⟩

/-- The fragments of a name make one name. -/
theorem Collects.fields {s : ServerParseStatus} {headers : List HttpHeader}
    {pending : Option Bytes} (h : s.Collects headers pending) {major minor : ℕ}
    (hversion : requestVersion major minor ≠ none) {fragment : Bytes} {fragments : List Bytes}
    (hnul : 0 ∉ (fragment :: fragments).flatten) :
    ∃ t, s.execute ((fragment :: fragments).map (.headerField major minor)) = some (t, true) ∧
      t.Collects headers (some (continued pending (fragment :: fragments).flatten)) := by
  rw [List.flatten_cons, List.mem_append, not_or] at hnul
  obtain ⟨u, hu, hcollects⟩ := h.field hversion hnul.1
  induction fragments generalizing s fragment pending u with
  | nil =>
    refine ⟨u, ?_, by simpa using hcollects⟩
    rw [List.map_singleton, execute.eq_2, hu]
    rfl
  | cons next fragments ih =>
    have hnext := hnul.2
    rw [List.flatten_cons, List.mem_append, not_or] at hnext
    obtain ⟨v, hv, hlater⟩ := hcollects.field hversion hnext.1
    obtain ⟨t, ht, hresult⟩ := ih hcollects hnext v hv hlater
    refine ⟨t, ?_, ?_⟩
    · rw [List.map_cons, execute.eq_2, hu]
      exact ht
    · simpa [continued] using hresult

/-- The status behind a value of a header line. -/
def withContent (s : ServerParseStatus) (name content : Bytes) : ServerParseStatus :=
  { s with
    parserCurrentHeader := some ⟨name, some content⟩
    parserHeaderState := .hstateValue }

/-- A fragment of a value is appended to the content of the header that waits. -/
theorem callback_value {s : ServerParseStatus} {name : Bytes} {content : Option Bytes}
    (hcurrent : s.parserCurrentHeader = some ⟨name, content⟩) (hnul : 0 ∉ content.getD [])
    (value : Bytes) :
    s.callback (.headerValue value) =
      some (s.withContent name (content.getD [] ++ cstr value), 0) := by
  simp [callback, onHeaderValue, hcurrent, httpHeaderAppendContent, cstr_cstr,
    cstr_of_zero_notMem hnul, withContent]

/-- The fragments of a value give the header that waits its content. -/
theorem execute_values {s : ServerParseStatus} {name : Bytes} {content : Option Bytes}
    (hcurrent : s.parserCurrentHeader = some ⟨name, content⟩) (hnul : 0 ∉ content.getD [])
    (value : Bytes) (values : List Bytes) :
    s.execute ((value :: values).map .headerValue) =
      some (s.withContent name (content.getD [] ++ (value :: values).flatMap cstr), true) := by
  induction values generalizing s value content with
  | nil =>
    rw [List.map_singleton, execute.eq_2, callback_value hcurrent hnul]
    simp [execute]
  | cons next values ih =>
    have hnext : (0 : UInt8) ∉ (some (content.getD [] ++ cstr value)).getD [] := by
      simpa [hnul] using zero_notMem_cstr value
    have hrest := @ih (s.withContent name (content.getD [] ++ cstr value)) _ rfl hnext next
    rw [List.map_cons, execute.eq_2, callback_value hcurrent hnul]
    simpa [withContent] using hrest

/-- A header line ends with its name waiting, or makes a header. -/
theorem Collects.line {s : ServerParseStatus} {headers : List HttpHeader} {pending : Option Bytes}
    (h : s.Collects headers pending) {major minor : ℕ}
    (hversion : requestVersion major minor ≠ none)
    {line : ParsedLine} (hnul : 0 ∉ line.name) :
    ∃ t, s.execute (line.callbacks major minor) = some (t, true) ∧ t.parserCurrentHeader ≠ none ∧
      if line.values = [] then t.Collects headers (some (continued pending line.name))
      else t.Collects (headers ++
        [⟨continued pending line.name, some (line.values.flatMap cstr)⟩]) none := by
  obtain ⟨u, hu, hcollects⟩ := h.fields hversion hnul
  cases hvalues : line.values with
  | nil =>
    refine ⟨u, ?_, ?_, ?_⟩
    · rw [ParsedLine.callbacks, hvalues, List.map_nil, List.append_nil]
      exact hu
    · cases hcollects with
      | named _ _ hcurrent _ _ => simp [hcurrent]
    · rw [if_pos rfl]
      exact hcollects
  | cons value values =>
    cases hcollects with
    | named hrequest hstate hcurrent hnul hstored =>
      have hexecute := execute_values hcurrent (by simp) value values
      refine ⟨u.withContent (continued pending line.name) ((value :: values).flatMap cstr), ?_,
        by simp [withContent], ?_⟩
      · rw [ParsedLine.callbacks, hvalues, execute_append hu]
        exact hexecute
      · rw [if_neg (by simp)]
        exact .valued hrequest rfl (by rw [hstored]; rfl)

/-- **Run lemma.** Header lines make the headers that are assembled from them. -/
theorem Collects.lines {s : ServerParseStatus} {headers : List HttpHeader} {pending : Option Bytes}
    (h : s.Collects headers pending) {m : ParsedMessage}
    {lines : List ParsedLine} (hversion : lines ≠ [] → requestVersion m.major m.minor ≠ none)
    (hnul : ∀ line ∈ lines, 0 ∉ line.name) :
    ∃ t made, s.execute (m.lineCallbacks lines) = some (t, true) ∧
      (lines ≠ [] → t.parserCurrentHeader ≠ none) ∧
      t.Collects (headers ++ made) (leftPending pending lines) ∧
      made ++ waiting (leftPending pending lines) =
        assembled pending lines := by
  induction lines generalizing s headers pending with
  | nil =>
    refine ⟨s, [], rfl, by simp, by simpa [leftPending] using h, ?_⟩
    cases pending <;> rfl
  | cons line lines ih =>
    obtain ⟨u, hu, hcurrent, hline⟩ := h.line (hversion (by simp)) (hnul line (by simp))
    have hrest (line' : ParsedLine) (hmem : line' ∈ lines) : 0 ∉ line'.name :=
      hnul line' (by simp [hmem])
    have hassembled := assembled_cons pending line lines
    have hnext {t : ServerParseStatus} (ht : u.execute (m.lineCallbacks lines) = some (t, true))
        (hlast : lines ≠ [] → t.parserCurrentHeader ≠ none) : t.parserCurrentHeader ≠ none := by
      by_cases hnil : lines = []
      · subst hnil
        obtain ⟨rfl, _⟩ := Prod.mk.inj (Option.some.inj ht)
        exact hcurrent
      · exact hlast hnil
    by_cases hvalues : line.values = []
    · rw [if_pos hvalues] at hline hassembled
      obtain ⟨t, made, ht, hlast, hcollects, hmade⟩ := ih hline (fun _ => hversion (by simp)) hrest
      refine ⟨t, made, ?_, fun _ => hnext ht hlast, ?_, ?_⟩
      · rw [ParsedMessage.lineCallbacks, List.flatMap_cons, execute_append hu]
        exact ht
      · rw [leftPending, if_pos hvalues]
        exact hcollects
      · rw [leftPending, if_pos hvalues, hassembled]
        exact hmade
    · rw [if_neg hvalues] at hline hassembled
      obtain ⟨t, made, ht, hlast, hcollects, hmade⟩ := ih hline (fun _ => hversion (by simp)) hrest
      refine ⟨t, ⟨continued pending line.name, some (line.values.flatMap cstr)⟩ :: made, ?_,
        fun _ => hnext ht hlast, ?_, ?_⟩
      · rw [ParsedMessage.lineCallbacks, List.flatMap_cons, execute_append hu]
        exact ht
      · rw [leftPending, if_neg hvalues]
        rw [List.append_assoc] at hcollects
        exact hcollects
      · rw [leftPending, if_neg hvalues, hassembled, List.cons_append, hmade]

/-- The headers of the current request. -/
def storedHeaders (s : ServerParseStatus) : List HttpHeader :=
  s.currentRequest.elim [] HttpRequest.headers

/-- Behind the end of the header all headers made so far are stored. -/
theorem Collects.headersComplete {s : ServerParseStatus} {headers : List HttpHeader}
    {pending : Option Bytes} (h : s.Collects headers pending) :
    ∃ t, s.execute [.headersComplete] = some (t, true) ∧ t.parserCurrentHeader = none ∧
      t.storedHeaders = headers ++ waiting pending ∧
      (pending = none → t.Collects headers none) := by
  cases h with
  | begun hrequest hline hstate hcurrent hstored =>
    have hstep : s.execute [.headersComplete] = some (s, true) := by
      simp [execute, callback, onHeadersComplete, hcurrent]
    refine ⟨s, hstep, hcurrent, ?_, fun _ => .begun hrequest hline hstate hcurrent hstored⟩
    simp [storedHeaders, hrequest, hstored, waiting]
  | @valued request hrequest hstate hstored =>
    cases hcurrent : s.parserCurrentHeader with
    | none =>
      have hstep : s.execute [.headersComplete] = some (s, true) := by
        simp [execute, callback, onHeadersComplete, hcurrent]
      rw [hcurrent, Option.toList_none, List.append_nil] at hstored
      refine ⟨s, hstep, hcurrent, by simp [storedHeaders, hrequest, hstored, waiting], fun _ => ?_⟩
      exact .valued hrequest hstate (by simp [hcurrent, hstored])
    | some header =>
      rw [hcurrent, Option.toList_some] at hstored
      let t : ServerParseStatus := { s with
        currentRequest := some { request with headers := request.headers ++ [header] }
        parserCurrentHeader := none }
      have hstep : s.execute [.headersComplete] = some (t, true) := by
        simp [execute, callback, onHeadersComplete, hcurrent, saveHeader, hrequest, t]
      refine ⟨t, hstep, rfl, by simp [storedHeaders, t, hstored, waiting], fun _ => ?_⟩
      exact .valued rfl hstate (by simpa [t] using hstored)
  | @named request name hrequest hstate hcurrent hnul hstored =>
    let t : ServerParseStatus := { s with
      currentRequest := some { request with headers := request.headers ++ [⟨name, none⟩] }
      parserCurrentHeader := none }
    have hstep : s.execute [.headersComplete] = some (t, true) := by
      simp [execute, callback, onHeadersComplete, hcurrent, saveHeader, hrequest, t]
    exact ⟨t, hstep, rfl, by simp [storedHeaders, t, hstored, waiting], by simp⟩

/-- While a header waits, all but the last of the headers made so far are stored. -/
theorem Collects.storedHeaders_eq {s : ServerParseStatus} {headers : List HttpHeader}
    {pending : Option Bytes} (h : s.Collects headers pending)
    (hcurrent : s.parserCurrentHeader ≠ none) :
    s.storedHeaders = (headers ++ waiting pending).dropLast := by
  cases h with
  | begun _ _ _ hnone _ => exact absurd hnone hcurrent
  | valued hrequest _ hstored =>
    obtain ⟨header, hheader⟩ := Option.ne_none_iff_exists'.mp hcurrent
    rw [hheader, Option.toList_some] at hstored
    simp [storedHeaders, hrequest, ← hstored, waiting]
  | named hrequest _ _ _ hstored => simp [storedHeaders, hrequest, hstored, waiting]

/-- Within a message headers are only added. -/
theorem CallbackMove.storedHeaders_prefix {s t : ServerParseStatus} {cb : ParserCallback}
    {code : ℤ} (h : CallbackMove s cb t code) (hcb : cb ≠ .messageBegin) :
    s.storedHeaders <+: t.storedHeaders := by
  cases h with
  | messageBegin => exact absurd rfl hcb
  | url hrequest _ => simp [storedHeaders, hrequest]
  | firstField _ _ hrequest _ => simp [storedHeaders, hrequest]
  | nextField _ _ hrequest => simp [storedHeaders, hrequest]
  | headersComplete _ hrequest => simp [storedHeaders, hrequest]
  | body hrequest hbody =>
    obtain ⟨body, _, rfl⟩ := Option.map_eq_some_iff.mp hbody
    simp [storedHeaders, hrequest]
  | otherVersion | laterField | moreField | headerValue | noHeader | messageComplete =>
    exact List.prefix_rfl

/-- Over the callbacks of a message headers are only added. -/
theorem execute_storedHeaders {s t : ServerParseStatus} {cbs : List ParserCallback} {ok : Bool}
    (hcbs : .messageBegin ∉ cbs) (h : s.execute cbs = some (t, ok)) :
    s.storedHeaders <+: t.storedHeaders :=
  execute_invariant (P := fun u => s.storedHeaders <+: u.storedHeaders)
    (fun _ hcb _ _ _ hs hmove =>
      hs.trans (hmove.storedHeaders_prefix fun heq => hcbs (heq ▸ hcb))) List.prefix_rfl h

end ServerParseStatus

namespace ParsedMessage

/-- The callbacks of a message to the end of its header. -/
def headCallbacks (m : ParsedMessage) : List ParserCallback :=
  (.messageBegin :: m.urlCallbacks) ++ (m.lineCallbacks m.headers ++ [.headersComplete])

/-- The callbacks of a message that can have a result: a fragment of a body has none. -/
def soundCallbacks (m : ParsedMessage) : List ParserCallback :=
  m.headCallbacks ++
    if m.bodies = [] then m.lineCallbacks m.trailers ++ [.messageComplete] else []

/-- The target leaves the status ready for the first header line. -/
theorem exists_begun (m : ParsedMessage) :
    ∃ u, ServerParseStatus.new.execute (.messageBegin :: m.urlCallbacks) = some (u, true) ∧
      u.Collects [] none := by
  obtain ⟨u, hu, hready⟩ := ServerParseStatus.execute_urls
    (show ServerParseStatus.new.onMessageBegin.currentRequest = some httpRequestNew from rfl)
    (by decide) m.method m.url m.moreUrl
  have hkept : u.parserHeaderState = .hstateNone ∧ u.parserCurrentHeader = none ∧
      u.storedHeaders = [] := by
    refine ServerParseStatus.execute_invariant (P := fun v => v.parserHeaderState = .hstateNone ∧
      v.parserCurrentHeader = none ∧ v.storedHeaders = []) ?_ ⟨rfl, rfl, rfl⟩ hu
    intro cb hcb v w code hv hmove
    obtain ⟨fragment, _, rfl⟩ := List.mem_map.mp hcb
    cases hmove with
    | url hrequest _ =>
      refine ⟨hv.1, hv.2.1, ?_⟩
      simpa [ServerParseStatus.storedHeaders, hrequest] using hv.2.2
  obtain ⟨request, line, hrequest, hline⟩ := hready.line
  refine ⟨u, hu, .begun hrequest hline hkept.1 hkept.2.1 ?_⟩
  simpa [ServerParseStatus.storedHeaders, hrequest] using hkept.2.2

/-- At the end of the header all headers that were made are stored. -/
theorem execute_head {m : ParsedMessage} (hnul : ∀ line ∈ m.headers, 0 ∉ line.name)
    (hversion : m.headers ≠ [] → ServerParseStatus.requestVersion m.major m.minor ≠ none) :
    ∃ t, ServerParseStatus.new.execute m.headCallbacks = some (t, true) ∧
      t.parserCurrentHeader = none ∧ t.storedHeaders = assembled none m.headers ∧
      ((∀ line ∈ m.headers, line.values ≠ []) → t.Collects (assembled none m.headers) none) := by
  obtain ⟨u, hu, hbegun⟩ := exists_begun m
  obtain ⟨v, made, hv, _, hcollects, hmade⟩ := hbegun.lines hversion hnul
  rw [List.nil_append] at hcollects
  obtain ⟨t, ht, hcurrent, hstored, hcleared⟩ := hcollects.headersComplete
  refine ⟨t, ?_, hcurrent, hstored.trans hmade, fun hvalues => ?_⟩
  · rw [headCallbacks, ServerParseStatus.execute_append hu, ServerParseStatus.execute_append hv, ht]
  · have hnone := leftPending_of_values hvalues
    rw [hnone] at hmade
    rw [← hmade]
    simpa [waiting] using hcleared hnone

/-- Behind the body all headers but the last are stored. -/
theorem execute_trailers {m : ParsedMessage} {s : ServerParseStatus} {headers : List HttpHeader}
    (hnul : ∀ line ∈ m.trailers, 0 ∉ line.name) (hstored : s.storedHeaders = headers)
    (hcollects : s.Collects headers none)
    (hversion : m.trailers ≠ [] → ServerParseStatus.requestVersion m.major m.minor ≠ none) :
    ∃ t, s.execute (m.lineCallbacks m.trailers ++ [.messageComplete]) = some (t, true) ∧
      t.storedHeaders = headers ++ (assembled none m.trailers).dropLast := by
  obtain ⟨u, made, hu, hcurrent, hmore, hmade⟩ := hcollects.lines hversion hnul
  refine ⟨u.onMessageComplete, ?_, ?_⟩
  · rw [ServerParseStatus.execute_append hu]
    rfl
  · change u.storedHeaders = _
    cases htrailers : m.trailers with
    | nil =>
      rw [htrailers] at hu
      obtain ⟨rfl, _⟩ := Prod.mk.inj (Option.some.inj hu)
      simpa [assembled] using hstored
    | cons line lines =>
      rw [hmore.storedHeaders_eq (hcurrent (by simp [htrailers])), List.append_assoc, hmade,
        htrailers, List.dropLast_append_of_ne_nil (assembled_cons_ne_nil none line lines)]

/-- A message begins once. -/
theorem messageBegin_notMem (m : ParsedMessage) : .messageBegin ∉ m.callbacks.tail := by
  have hlines (lines : List ParsedLine) : .messageBegin ∉ m.lineCallbacks lines := by
    intro hmem
    rcases mem_lineCallbacks hmem with ⟨_, heq⟩ | ⟨_, heq⟩ <;> simp at heq
  simp [callbacks, urlCallbacks, rest, hlines]

/-- The end of the header comes after the first part of a message. -/
theorem callbacks_eq (m : ParsedMessage) : m.callbacks =
    m.headCallbacks ++ (m.bodies.map .body ++
      (m.lineCallbacks m.trailers ++ [.messageComplete])) := by
  simp [callbacks, headCallbacks, rest]

/-- The callbacks that can have a result are the first ones. -/
theorem soundCallbacks_prefix (m : ParsedMessage) : m.soundCallbacks <+: m.callbacks := by
  rw [callbacks_eq, soundCallbacks, List.prefix_append_right_inj]
  split
  · next hbodies => rw [hbodies, List.map_nil, List.nil_append]
  · exact List.nil_prefix

/-- Callbacks that have a result end before the body. -/
theorem prefix_soundCallbacks {m : ParsedMessage} {cbs : List ParserCallback}
    {t : ServerParseStatus} {ok : Bool} (hpre : cbs <+: m.callbacks)
    (h : ServerParseStatus.new.execute cbs = some (t, ok))
    (hhead : ∃ u, ServerParseStatus.new.execute m.headCallbacks = some (u, true)) :
    cbs <+: m.soundCallbacks := by
  rw [callbacks_eq] at hpre
  cases hbodies : m.bodies with
  | nil => simpa [soundCallbacks, hbodies] using hpre
  | cons fragment fragments =>
    rw [soundCallbacks, hbodies, if_neg (by simp), List.append_nil]
    rcases List.prefix_or_prefix_of_prefix hpre (List.prefix_append _ _) with hle | ⟨more, rfl⟩
    · exact hle
    · obtain ⟨u, hu⟩ := hhead
      rw [List.prefix_append_right_inj, hbodies, List.map_cons, List.cons_append] at hpre
      cases more with
      | nil => rw [List.append_nil]
      | cons cb more =>
        obtain ⟨rfl, _⟩ := List.cons_prefix_cons.mp hpre
        have hnobody : u.NoBody := ServerParseStatus.execute_invariant
          (fun _ _ _ _ _ hs hmove => hmove.noBody hs) .new hu
        rw [ServerParseStatus.execute_append hu, ServerParseStatus.execute.eq_2,
          ServerParseStatus.callback, ServerParseStatus.onBody_eq_none hnobody] at h
        simp at h

/-- Where the first header line has another version nothing is stored. -/
theorem storedHeaders_otherVersion {m : ParsedMessage} {cbs : List ParserCallback}
    {t : ServerParseStatus} {ok : Bool}
    (hversion : ServerParseStatus.requestVersion m.major m.minor = none) (hheaders : m.headers ≠ [])
    (hpre : cbs <+: m.callbacks) (h : ServerParseStatus.new.execute cbs = some (t, ok)) :
    t.storedHeaders = [] := by
  obtain ⟨first, lines, hfirst⟩ := List.exists_cons_of_ne_nil hheaders
  let start : List ParserCallback :=
    (.messageBegin :: m.urlCallbacks) ++ [.headerField m.major m.minor first.field]
  have hsplit : ∃ more, m.callbacks = start ++ more :=
    ⟨_, by
      rw [callbacks, hfirst, lineCallbacks, List.flatMap_cons, ParsedLine.callbacks, List.map_cons]
      simp only [start, List.cons_append, List.append_assoc, List.nil_append]
      rfl⟩
  obtain ⟨more, hmore⟩ := hsplit
  have hstart {cbs : List ParserCallback} {t : ServerParseStatus} {ok : Bool}
      (hpre : cbs <+: start) (h : ServerParseStatus.new.execute cbs = some (t, ok)) :
      t.parserHeaderState = .hstateNone ∧ t.storedHeaders = [] := by
    refine ServerParseStatus.execute_invariant (P := fun v => v.parserHeaderState = .hstateNone ∧
      v.storedHeaders = []) ?_ ⟨rfl, rfl⟩ h
    intro cb hcb v w code hv hmove
    have hmem : cb ∈ start := hpre.subset hcb
    simp only [start, urlCallbacks, List.mem_append, List.mem_cons, List.mem_map,
      List.not_mem_nil, or_false] at hmem
    rcases hmem with (rfl | ⟨fragment, _, rfl⟩) | rfl
    · cases hmove
      exact ⟨hv.1, rfl⟩
    · cases hmove with
      | url hrequest _ =>
        refine ⟨hv.1, ?_⟩
        simpa [ServerParseStatus.storedHeaders, hrequest] using hv.2
    · cases hmove with
      | otherVersion _ _ => exact hv
      | firstField _ hknown _ _ => simp [hversion] at hknown
      | nextField hvalue _ _ => simp [hv.1] at hvalue
      | laterField hvalue _ => simp [hv.1] at hvalue
      | moreField hfield _ => simp [hv.1] at hfield
  rw [hmore] at hpre
  rcases List.prefix_or_prefix_of_prefix hpre (List.prefix_append _ _) with hle | ⟨later, rfl⟩
  · exact (hstart hle h).2
  · obtain ⟨u, hu, _⟩ := exists_begun m
    obtain ⟨hstate, hstored⟩ := hstart (List.prefix_append _ _) hu
    have hstop : ServerParseStatus.new.execute start = some ({ u with
        parserCurrentHeader := some (httpHeaderNew (cstr first.field) none) }, false) := by
      rw [ServerParseStatus.execute_append hu, ServerParseStatus.execute.eq_2]
      simp [ServerParseStatus.callback, ServerParseStatus.onHeaderField, hstate, hversion]
    rw [ServerParseStatus.execute_stopped hstop] at h
    obtain ⟨rfl, _⟩ := Prod.mk.inj (Option.some.inj h)
    exact hstored

end ParsedMessage

/-- Header lines that all have values make one header each. -/
theorem assembled_of_values {lines : List ParsedLine} (hvalues : ∀ line ∈ lines, line.values ≠ [])
    (hnul : ∀ line ∈ lines, 0 ∉ line.values.flatten) :
    assembled none lines =
      lines.map fun line => (⟨line.name, some line.values.flatten⟩ : HttpHeader) := by
  induction lines with
  | nil => rfl
  | cons line lines ih =>
    have hcontent : line.values.flatMap cstr = line.values.flatten := by
      rw [List.flatMap_def, List.map_congr_left (g := id), List.map_id]
      intro value hvalue
      exact cstr_of_zero_notMem fun hzero =>
        hnul line (by simp) (List.mem_flatten.mpr ⟨value, hvalue, hzero⟩)
    rw [assembled_cons, if_neg (hvalues line (by simp)), hcontent,
      ih (fun line' hmem => hvalues line' (by simp [hmem]))
        (fun line' hmem => hnul line' (by simp [hmem]))]
    rfl

/-- Behind the end of the header of a request the list of headers holds one header for each
header line, in order, with the fragments of its name and of its value put together, and no
header is left over. The status was new or has been reset before the request. -/
theorem headers_of_lines {m : ParsedMessage} {s : ServerParseStatus}
    (hs : s = .new ∨ ∃ old : ServerParseStatus, s = old.reset)
    (hversion : m.major = 1 ∧ (m.minor = 0 ∨ m.minor = 1))
    (hvalues : ∀ line ∈ m.headers, line.values ≠ [])
    (hnul : ∀ line ∈ m.headers, 0 ∉ line.name ∧ 0 ∉ line.values.flatten) :
    ∃ t request, s.execute m.headCallbacks = some (t, true) ∧ t.currentRequest = some request ∧
      request.headers = m.headers.map (fun line => ⟨line.name, some line.values.flatten⟩) ∧
      t.parserCurrentHeader = none := by
  have hnew : s = .new := by
    rcases hs with rfl | ⟨old, rfl⟩ <;> rfl
  have hknown : ServerParseStatus.requestVersion m.major m.minor ≠ none := by
    rcases hversion with ⟨hmajor, hminor | hminor⟩ <;>
      simp [ServerParseStatus.requestVersion, hmajor, hminor]
  obtain ⟨t, ht, hcurrent, hstored, hcollects⟩ :=
    ParsedMessage.execute_head (fun line hmem => (hnul line hmem).1) fun _ => hknown
  have hrequest : ∃ request, t.currentRequest = some request := by
    cases hcollects hvalues with
    | begun hrequest => exact ⟨_, hrequest⟩
    | valued hrequest => exact ⟨_, hrequest⟩
  obtain ⟨request, hrequest⟩ := hrequest
  refine ⟨t, request, hnew ▸ ht, hrequest, ?_, hcurrent⟩
  rw [assembled_of_values hvalues fun line hmem => (hnul line hmem).2] at hstored
  simpa [ServerParseStatus.storedHeaders, hrequest] using hstored

/-- At every point of a message the stored headers have a content each and the names of the first
header lines, so that no lookup of a host or a connection header meets a null content. -/
def HeadersKept (m : ParsedMessage) : Prop :=
  ∀ cbs t ok, cbs <+: m.callbacks → ServerParseStatus.new.execute cbs = some (t, ok) →
    Kept t.storedHeaders (m.headers ++ m.trailers) ∧
      ∀ request line, t.currentRequest = some request →
        requestHostname request line ≠ none ∧ closesConnection request line ≠ none

/-- Every header line has a value, and behind the body, where there is none, no header line
without a value comes before another one that has a value and is not the last. -/
def ValuesKept (m : ParsedMessage) : Prop :=
  ServerParseStatus.requestVersion m.major m.minor ≠ none →
    (∀ line ∈ m.headers, line.values ≠ []) ∧
      (m.bodies = [] → m.trailers.dropLast.Pairwise fun earlier later =>
        later.values ≠ [] → earlier.values ≠ [])

/-- Lookups meet no null content where there is none. -/
theorem lookups_of_content {request : HttpRequest}
    (hcontent : ∀ header ∈ request.headers, header.content ≠ none) (line : HttpRequestLine) :
    requestHostname request line ≠ none ∧ closesConnection request line ≠ none := by
  have hget {name : Bytes} {header : HttpHeader}
      (h : httpHeaderListGet request.headers name = some header) : header.content ≠ none := by
    unfold httpHeaderListGet at h
    split at h
    · simp at h
    · exact hcontent header (List.mem_of_find?_eq_some h)
  constructor
  · unfold requestHostname
    split
    · cases hhost : httpHeaderListGet request.headers headerHost with
      | none => simp
      | some header => simpa using hget hhost
    · simp
  · unfold closesConnection
    cases hconnection : httpHeaderListGet request.headers headerConnection with
    | none => simp
    | some header => simpa using hget hconnection

/-- The callbacks that can have a result keep the headers where the header lines have values. -/
theorem kept_soundCallbacks {m : ParsedMessage}
    (hnamed : ∀ line ∈ m.headers ++ m.trailers, line.Named) (hvalues : ValuesKept m)
    (hversion : m.headers ≠ [] → ServerParseStatus.requestVersion m.major m.minor ≠ none) :
    ∃ t, ServerParseStatus.new.execute m.soundCallbacks = some (t, true) ∧
      Kept t.storedHeaders (m.headers ++ m.trailers) := by
  have hheaders (line : ParsedLine) (hmem : line ∈ m.headers) : line.Named :=
    hnamed line (List.mem_append_left _ hmem)
  have hnuls (line : ParsedLine) (hmem : line ∈ m.headers) : 0 ∉ line.name :=
    (hheaders line hmem).2
  have htrailers (line : ParsedLine) (hmem : line ∈ m.trailers) : line.Named :=
    hnamed line (List.mem_append_right _ hmem)
  have hboth : (∀ line ∈ m.headers, line.values ≠ []) ∧
      (m.bodies = [] → m.trailers.dropLast.Pairwise fun earlier later =>
        later.values ≠ [] → earlier.values ≠ []) := by
    by_cases hnil : m.headers = []
    · simp [hnil, m.trailers_nil hnil]
    · exact hvalues (hversion hnil)
  obtain ⟨t, ht, -, hstored, hmore⟩ := ParsedMessage.execute_head hnuls hversion
  by_cases hbodies : m.bodies = []
  · obtain ⟨u, hu, hlast⟩ :=
      ParsedMessage.execute_trailers (fun line hmem => (htrailers line hmem).2) hstored
        (hmore hboth.1) fun hne => hversion fun hnil => hne (m.trailers_nil hnil)
    refine ⟨u, ?_, ?_⟩
    · rw [ParsedMessage.soundCallbacks, if_pos hbodies, ServerParseStatus.execute_append ht, hu]
    · rw [hlast, kept_append_iff hboth.1, kept_dropLast_assembled_iff htrailers]
      exact hboth.2 hbodies
  · refine ⟨t, ?_, ?_⟩
    · rw [ParsedMessage.soundCallbacks, if_neg hbodies, List.append_nil, ht]
    · rw [hstored, kept_assembled_iff hheaders]
      exact hboth.1

/-- The stored headers are kept over a message exactly where its header lines have values. -/
theorem headersKept_iff {m : ParsedMessage}
    (hnamed : ∀ line ∈ m.headers ++ m.trailers, line.Named) : HeadersKept m ↔ ValuesKept m := by
  have hheaders (line : ParsedLine) (hmem : line ∈ m.headers) : line.Named :=
    hnamed line (List.mem_append_left _ hmem)
  have hnuls (line : ParsedLine) (hmem : line ∈ m.headers) : 0 ∉ line.name :=
    (hheaders line hmem).2
  have htrailers (line : ParsedLine) (hmem : line ∈ m.trailers) : line.Named :=
    hnamed line (List.mem_append_right _ hmem)
  constructor
  · intro hkept hversion
    obtain ⟨t, ht, -, hstored, hmore⟩ := ParsedMessage.execute_head hnuls fun _ => hversion
    have hpre : m.headCallbacks <+: m.callbacks := m.callbacks_eq ▸ List.prefix_append _ _
    have hvalues := (hkept _ _ _ hpre ht).1
    rw [hstored, kept_assembled_iff hheaders] at hvalues
    refine ⟨hvalues, fun hbodies => ?_⟩
    obtain ⟨u, hu, hlast⟩ :=
      ParsedMessage.execute_trailers (fun line hmem => (htrailers line hmem).2) hstored
        (hmore hvalues) fun _ => hversion
    have hall : ServerParseStatus.new.execute m.callbacks = some (u, true) := by
      rw [m.callbacks_eq, hbodies, List.map_nil, List.nil_append,
        ServerParseStatus.execute_append ht, hu]
    have hend := (hkept _ _ _ List.prefix_rfl hall).1
    rwa [hlast, kept_append_iff hvalues, kept_dropLast_assembled_iff htrailers] at hend
  · intro hvalues cbs t ok hpre h
    have hkept : Kept t.storedHeaders (m.headers ++ m.trailers) := by
      by_cases hother : m.headers ≠ [] ∧
          ServerParseStatus.requestVersion m.major m.minor = none
      · rw [ParsedMessage.storedHeaders_otherVersion hother.2 hother.1 hpre h]
        exact Kept.nil _
      · have hversion (hne : m.headers ≠ []) :
            ServerParseStatus.requestVersion m.major m.minor ≠ none :=
          fun hnone => hother ⟨hne, hnone⟩
        obtain ⟨u, hu, hend⟩ := kept_soundCallbacks hnamed hvalues hversion
        obtain ⟨v, hv, _⟩ := ParsedMessage.execute_head hnuls hversion
        obtain ⟨later, hlater⟩ := ParsedMessage.prefix_soundCallbacks hpre h ⟨v, hv⟩
        rw [← hlater] at hu
        obtain ⟨w, hw, hrest⟩ := ServerParseStatus.execute_initial hu
        obtain ⟨rfl, _⟩ := Prod.mk.inj (Option.some.inj (h.symm.trans hw))
        cases cbs with
        | nil =>
          obtain ⟨rfl, _⟩ := Prod.mk.inj (Option.some.inj h)
          exact Kept.nil _
        | cons cb cbs =>
          have hnone : .messageBegin ∉ later := by
            intro hmem
            obtain ⟨rest, hall⟩ := m.soundCallbacks_prefix
            apply m.messageBegin_notMem
            rw [← hall, ← hlater]
            simp [hmem]
          exact hend.initial (ServerParseStatus.execute_storedHeaders hnone hrest)
    refine ⟨hkept, fun request line hrequest => lookups_of_content ?_ line⟩
    simpa [ServerParseStatus.storedHeaders, hrequest] using hkept.1

/-- A request whose header lines have values, the first one in two fragments and of a name in
two fragments. -/
def valuedHeaders : ParsedMessage :=
  ⟨ascii "GET", ascii "/", [], 1, 1,
    [⟨ascii "Ho", [ascii "st"], [ascii "a", ascii ".b"]⟩, ⟨ascii "Accept", [], [ascii "*"]⟩], [],
    [], by simp⟩

/-- The header lines of this request become two headers. -/
theorem headers_of_lines_valued : ∃ t request,
    ServerParseStatus.new.execute valuedHeaders.headCallbacks = some (t, true) ∧
      t.currentRequest = some request ∧
      request.headers = valuedHeaders.headers.map
        (fun line => ⟨line.name, some line.values.flatten⟩) ∧
      t.parserCurrentHeader = none :=
  headers_of_lines (Or.inl rfl) (by decide) (by decide) (by decide)

/-- Header lines that have values are kept. -/
theorem headersKept_valued : HeadersKept valuedHeaders :=
  (headersKept_iff (by decide)).mpr fun _ => ⟨by decide, fun _ => by decide⟩

/-- A request with a host line that has no colon. -/
def bareHost : ParsedMessage :=
  { valuedHeaders with headers := [⟨ascii "Host", [], []⟩], trailers_nil := by simp }

/-- A host without content is stored. -/
theorem not_headersKept_bareHost : ¬HeadersKept bareHost := by
  intro hkept
  have hpre : bareHost.headCallbacks <+: bareHost.callbacks := by decide
  have hcontent := (hkept _ _ true hpre rfl).1.1 ⟨ascii "Host", none⟩ (by decide)
  exact hcontent rfl

end Khttp
