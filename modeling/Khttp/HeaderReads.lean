import Khttp.HeaderLines
import Khttp.Messages
import Khttp.ParserStreams

/-!
# Header lines that are read

A header section of lines that are written as the parser expects them is read without a stop, its
callbacks are the names and the values of the lines, and what it leaves of the framing is what the
lines say.
-/

namespace Khttp

open Lib

/-- What is checked of the byte in front, if there is one. -/
theorem forall_head_of_all {P : UInt8 → Prop} [DecidablePred P] {text : Bytes}
    (h : (text.head?.all fun c => decide (P c)) = true) : ∀ c ∈ text.head?, P c := by
  intro c hc
  rw [Option.mem_def.mp hc] at h
  exact of_decide_eq_true h

/-- A header line as it is written. -/
structure WrittenLine where
  /-- The name. -/
  name : Bytes
  /-- What stands between the colon and the value. -/
  blanks : Bytes
  /-- The value. -/
  value : Bytes
  /-- There is a name. -/
  name_ne : name ≠ []
  /-- A name is a token. -/
  name_token : ∀ c ∈ name, token c ≠ 0
  /-- Spaces and tabs. -/
  blanks_blank : ∀ c ∈ blanks, isBlankChar c = true
  /-- A value begins with something else. -/
  value_blank : ∀ c ∈ value.head?, isBlankChar c = false
  /-- A value is on one line. -/
  value_line : ∀ c ∈ value, c ≠ cr ∧ c ≠ lf
  deriving DecidableEq, Repr

/-- The end of a line. -/
def crlf : Bytes := [cr, lf]

/-- The bytes of a header line. -/
def WrittenLine.bytes (line : WrittenLine) : Bytes :=
  line.name ++ (byte ':' :: line.blanks) ++ line.value ++ crlf

/-- The line as the parser reports it. -/
def WrittenLine.parsed (line : WrittenLine) : ParsedLine := ⟨line.name, [], [line.value]⟩

/-- What some lines say of the body. -/
def Framing.lines (f : Framing) (lines : List WrittenLine) : Option Framing :=
  lines.foldlM (fun f line => f.line line.name line.value) f

/-- The characters of a text are one text. -/
theorem TextKind.sameTexts_pieces (k : TextKind) {text : Bytes} (hne : text ≠ []) :
    SameTexts (text.map fun c => k.callback [c]) [k.callback text] := by
  obtain ⟨ch, rest, rfl⟩ := List.exists_cons_of_ne_nil hne
  simpa [SameTexts] using coalesce_pieces joining k.join_callback [ch] rest []

namespace HttpParser

variable {p : HttpParser} {ch : UInt8}

/-- The byte is counted. -/
def counted (p : HttpParser) : HttpParser := { p with nread := p.nread + 1 }

/-- A byte of the header, as long as the header is not too large. -/
theorem step_of_parsingHeader (h : p.state.parsingHeader = true)
    (hlt : p.nread < httpMaxHeaderSize) : p.step ch = p.counted.stateStep ch := by
  have hroom : ¬httpMaxHeaderSize < p.nread + 1 := by omega
  rw [step, h, if_pos rfl]
  dsimp only
  rw [if_neg hroom]
  rfl

/-- A byte in front of which there is room for a line, in a state of the header. -/
theorem step_headerField (hstate : p.state = .headerField) (hlt : p.nread < httpMaxHeaderSize) :
    p.step ch = p.counted.headerFieldStep ch := by
  rw [step_of_parsingHeader (by rw [hstate]; rfl) hlt, stateStep]
  simp only [counted, hstate]

/-- A case that ends with an error. -/
theorem acceptCase_fail {q : HttpParser} {e : HttpErrno} {cbs : List ParserCallback}
    (he : e ≠ .ok) : p.acceptCase (some (q.fail e)) cbs = .stop [] (q.fail e) :=
  if_neg he

/-- A byte of the header that neither sets a mark nor makes a callback. -/
theorem step_plain {p' : HttpParser} (hplain : p.state.IsPlain) (h : p.state.parsingHeader = true)
    (hlt : p.nread < httpMaxHeaderSize) (hcase : p.counted.plainCase ch = some p')
    (hok : p'.httpErrno = .ok) : p.step ch = .next [] p' := by
  have hstep : p.counted.stateStep ch = p.counted.acceptCase (p.counted.plainCase ch) [] := by
    unfold stateStep
    cases hstate : p.state <;> simp [counted, hstate] <;>
      simp [hstate, ParserState.IsPlain] at hplain
  rw [step_of_parsingHeader h hlt, hstep, hcase]
  exact if_pos hok

/-- The characters of a name. -/
theorem reads_name {name more : Bytes} (hstate : p.state = .headerField)
    (hscan : NameScan name p.headerState p.index) (hok : p.httpErrno = .ok)
    (htoken : ∀ c ∈ more, token c ≠ 0) (hroom : p.nread + more.length ≤ httpMaxHeaderSize) :
    ∃ h index,
      p.Reads more (more.map p.fieldByte)
        { p with headerState := h, index, nread := p.nread + more.length } ∧
      NameScan (name ++ more) h index := by
  induction more generalizing p name with
  | nil => exact ⟨p.headerState, p.index, .nil p, by rwa [List.append_nil]⟩
  | cons c more ih =>
    rw [List.length_cons] at hroom
    have hc : token c ≠ 0 := htoken c List.mem_cons_self
    obtain ⟨h, index, hmatch, hscan'⟩ :=
      nameScan_matchName (p := { p with nread := p.nread + 1 }) hc hscan
    have hstep : p.step c = .next [p.fieldByte c]
        { p with headerState := h, index, nread := p.nread + 1 } := by
      rw [step_headerField hstate (by omega), headerFieldStep, if_pos hc, counted, hmatch]
      exact if_pos hok
    obtain ⟨h', index', hreads, hscan''⟩ :=
      ih (p := { p with headerState := h, index, nread := p.nread + 1 })
      hstate hscan' hok (fun d hd => htoken d (List.mem_cons_of_mem _ hd)) (by dsimp only; omega)
    refine ⟨h', index', ?_, by simpa using hscan''⟩
    have hlength : p.nread + (more.length + 1) = p.nread + 1 + more.length := by omega
    rw [List.length_cons, hlength]
    exact .cons hstep hreads

/-- The colon behind a name. -/
theorem step_colon (hstate : p.state = .headerField) (hlt : p.nread < httpMaxHeaderSize) :
    p.step (byte ':') =
      .next [] { p with state := .headerValueDiscardWs, nread := p.nread + 1 } := by
  have htoken : token (byte ':') = 0 := by decide
  rw [step_headerField hstate hlt, headerFieldStep, if_neg (not_not_intro htoken), if_pos rfl]
  rfl

/-- A byte in front of a value. -/
theorem step_headerValueDiscardWs (hstate : p.state = .headerValueDiscardWs)
    (hlt : p.nread < httpMaxHeaderSize) :
    p.step ch = p.counted.headerValueDiscardWsStep ch := by
  rw [step_of_parsingHeader (by rw [hstate]; rfl) hlt, stateStep]
  simp only [counted, hstate]

/-- The blanks in front of a value. -/
theorem reads_blanks {blanks : Bytes} (hstate : p.state = .headerValueDiscardWs)
    (hblank : ∀ c ∈ blanks, isBlankChar c = true)
    (hroom : p.nread + blanks.length ≤ httpMaxHeaderSize) :
    p.Reads blanks [] { p with nread := p.nread + blanks.length } := by
  induction blanks generalizing p with
  | nil => exact .nil p
  | cons c blanks ih =>
    rw [List.length_cons] at hroom
    have hc : isBlankChar c = true := hblank c List.mem_cons_self
    have hstep : p.step c = .next [] { p with nread := p.nread + 1 } := by
      rw [step_headerValueDiscardWs hstate (by omega), headerValueDiscardWsStep, if_pos hc]
      rfl
    have hreads := ih (p := { p with nread := p.nread + 1 }) hstate
      (fun d hd => hblank d (List.mem_cons_of_mem _ hd)) (by dsimp only; omega)
    have hlength : p.nread + (blanks.length + 1) = p.nread + 1 + blanks.length := by omega
    rw [List.length_cons, hlength]
    exact .cons hstep hreads

/-- The end of a line without a value. -/
theorem reads_crlf_noValue (hstate : p.state = .headerValueDiscardWs) (hok : p.httpErrno = .ok)
    (hroom : p.nread + 2 ≤ httpMaxHeaderSize) :
    p.Reads crlf [] { p with state := .headerValueDiscardLws, nread := p.nread + 2 } := by
  have hcr : p.step cr =
      .next [] { p with state := .headerValueDiscardWsAlmostDone, nread := p.nread + 1 } := by
    rw [step_headerValueDiscardWs hstate (by omega), headerValueDiscardWsStep,
      if_neg (by decide), if_pos rfl]
    rfl
  have hlf : ({ p with state := .headerValueDiscardWsAlmostDone, nread := p.nread + 1 } :
      HttpParser).step lf =
        .next [] { p with state := .headerValueDiscardLws, nread := p.nread + 2 } :=
    step_plain trivial rfl (by dsimp only; omega) (by simp [plainCase, strictCheck, counted])
      hok
  exact .cons hcr (.single hlf)

/-- A byte of a value. -/
theorem step_headerValue (hstate : p.state = .headerValue) (hlt : p.nread < httpMaxHeaderSize) :
    p.step ch = p.counted.headerValueStep ch := by
  rw [step_of_parsingHeader (by rw [hstate]; rfl) hlt, stateStep]
  simp only [counted, hstate]

variable {kind : HeaderState} {f : Framing} {value more : Bytes}

/-- What counts a byte does not change what is said of a value. -/
theorem ValueScan.counted (h : p.ValueScan kind f value) : p.counted.ValueScan kind f value := h

/-- The characters of a value. -/
theorem reads_value (hstate : p.state = .headerValue) (hok : p.httpErrno = .ok)
    (hscan : p.ValueScan kind f value) (hline : ∀ c ∈ more, c ≠ cr ∧ c ≠ lf)
    (hvalid : kind = .contentLength → contentLengthOf (value ++ more) ≠ none)
    (hroom : p.nread + more.length ≤ httpMaxHeaderSize) :
    ∃ h index n,
      p.Reads more (more.map fun c => .headerValue [c])
        { p with headerState := h, index, contentLength := n, nread := p.nread + more.length } ∧
      ({ p with headerState := h, index, contentLength := n, nread := p.nread + more.length } :
        HttpParser).ValueScan kind f (value ++ more) := by
  induction more generalizing p value with
  | nil => exact ⟨p.headerState, p.index, p.contentLength, .nil p, by rwa [List.append_nil]⟩
  | cons c more ih =>
    rw [List.length_cons] at hroom
    rw [← List.singleton_append, ← List.append_assoc] at hvalid
    obtain ⟨hcr, hlf⟩ := hline c List.mem_cons_self
    obtain ⟨h, index, n, hmatch, hscan'⟩ := valueScan_matchValue hscan.counted
      fun hnumber hnone => hvalid hnumber (contentLengthOf_append hnone more)
    have hstep : p.step c = .next [.headerValue [c]]
        { p with headerState := h, index, contentLength := n, nread := p.nread + 1 } := by
      rw [step_headerValue hstate (by omega), headerValueStep, if_neg hcr, if_neg hlf, hmatch]
      exact if_pos hok
    obtain ⟨h', index', n', hreads, hscan''⟩ := ih (p := { p with
      headerState := h, index, contentLength := n, nread := p.nread + 1 }) hstate hok hscan'
      (fun d hd => hline d (List.mem_cons_of_mem _ hd)) hvalid (by dsimp only; omega)
    have hlength : p.nread + (more.length + 1) = p.nread + 1 + more.length := by omega
    refine ⟨h', index', n', ?_, ?_⟩
    · rw [List.length_cons, hlength]
      exact .cons hstep hreads
    · rw [List.length_cons, hlength, ← List.singleton_append, ← List.append_assoc]
      exact hscan''

/-- The parser behind the line before, in front of the next one. -/
def atLine (p : HttpParser) : HttpParser :=
  match p.state with
  | .headerValueLws => { p.endHeader with state := .headerFieldStart }
  | .headerValueDiscardLws => { p with state := .headerFieldStart }
  | _ => p

/-- The callback of the line before that is still to be made: that of an empty value. -/
def owed (p : HttpParser) : List ParserCallback :=
  if p.state = .headerValueDiscardLws then [.headerValue []] else []

/-- The parser is in front of a header line; the lines in front of it say `f`, and `request` is
what the request line was. -/
structure LineStart (p : HttpParser) (f : Framing) (nread : ℕ)
    (request : ℕ × ℕ × HttpMethod × Bool) :
    Prop where
  /-- The states in front of a header line. -/
  state : p.state = .headerFieldStart ∨ p.state = .headerValueLws ∨ p.state = .headerValueDiscardLws
  /-- There is no error. -/
  ok : p.httpErrno = .ok
  /-- What the lines say. -/
  flags : p.atLine.flags = f.flags
  /-- The length of the body. -/
  contentLength : p.contentLength = f.contentLength
  /-- The bytes of the header. -/
  nread : p.nread = nread
  /-- The request line. -/
  request : (p.httpMajor, p.httpMinor, p.method, p.upgrade) = request

/-- The byte behind a line is looked at as the first one of the next line. -/
theorem LineStart.counted_atLine {f : Framing} {nread : ℕ} {request : ℕ × ℕ × HttpMethod × Bool}
    (h : p.LineStart f nread request) : p.counted.atLine =
      { p with state := .headerFieldStart, flags := f.flags, nread := nread + 1 } := by
  obtain ⟨flags, state, headerState, _⟩ := p
  obtain ⟨hstate, _, hflags, _, rfl, _⟩ := h
  dsimp only at hstate
  rw [← hflags]
  rcases hstate with rfl | rfl | rfl
  · rfl
  · cases headerState <;> rfl
  · rfl

/-- A byte that does not continue the line before. -/
theorem LineStart.step {f : Framing} {nread : ℕ} {request : ℕ × ℕ × HttpMethod × Bool}
    (h : p.LineStart f nread request) (hblank : isBlankChar ch = false)
    (hlt : nread < httpMaxHeaderSize) :
    p.step ch = p.owed.foldr ByteStep.after
      (({ p with state := .headerFieldStart, flags := f.flags, nread := nread + 1 } :
        HttpParser).headerFieldStartStep ch) := by
  rw [← h.counted_atLine]
  have hstep : p.step ch = p.counted.stateStep ch := by
    refine step_of_parsingHeader ?_ (h.nread ▸ hlt)
    rcases h.state with hstate | hstate | hstate <;> rw [hstate] <;> rfl
  rw [hstep]
  unfold stateStep owed atLine
  rcases h.state with hstate | hstate | hstate
  · simp only [counted, hstate, reduceCtorEq, if_false, List.foldr_nil]
  · simp only [counted, hstate, headerValueLwsStep, hblank, reduceCtorEq, if_false, List.foldr_nil]
  · simp only [counted, hstate, headerValueDiscardLwsStep, hblank]
    rfl

/-- Callbacks in front of a step that goes on. -/
theorem foldr_after_next (cs cbs : List ParserCallback) (p : HttpParser) :
    cs.foldr ByteStep.after (.next cbs p) = .next (cs ++ cbs) p := by
  induction cs with
  | nil => rfl
  | cons cb cs ih => rw [List.foldr_cons, ih, List.cons_append, ByteStep.after]

/-- The parser is behind the colon of a header line and the blanks that follow it. -/
structure ValueStart (p : HttpParser) (kind : HeaderState) (f : Framing) (nread : ℕ)
    (request : ℕ × ℕ × HttpMethod × Bool) : Prop where
  /-- The state in front of a value. -/
  state : p.state = .headerValueDiscardWs
  /-- There is no error. -/
  ok : p.httpErrno = .ok
  /-- The name. -/
  headerState : p.headerState.settled = kind
  /-- What the lines in front of this one say. -/
  flags : p.flags = f.flags
  /-- The length of the body. -/
  contentLength : p.contentLength = f.contentLength
  /-- The bytes of the header. -/
  nread : p.nread = nread
  /-- The request line. -/
  request : (p.httpMajor, p.httpMinor, p.method, p.upgrade) = request

variable {n : ℕ} {r : ℕ × ℕ × HttpMethod × Bool}

/-- A character of a token is neither blank nor the end of a line. -/
theorem of_token_ne {c : UInt8} (h : token c ≠ 0) :
    isBlankChar c = false ∧ c ≠ cr ∧ c ≠ lf := by
  have hne (d : UInt8) (hd : token d = 0) : c ≠ d := fun heq => h (heq ▸ hd)
  have hspace := hne (byte ' ') (by decide)
  have htab := hne (byte '\t') (by decide)
  exact ⟨by simp [isBlankChar, hspace, htab], hne cr (by decide), hne lf (by decide)⟩

/-- The name of a line, with what stands between it and the value. -/
theorem LineStart.reads_name (h : p.LineStart f n r) (line : WrittenLine)
    (hroom : n + line.name.length + 1 + line.blanks.length ≤ httpMaxHeaderSize) :
    ∃ q, p.Reads (line.name ++ byte ':' :: line.blanks)
        (p.owed ++ line.name.map fun c => .headerField r.1 r.2.1 [c]) q ∧
      q.ValueStart (.ofName line.name) f (n + line.name.length + 1 + line.blanks.length) r := by
  obtain ⟨c, name, hname⟩ := List.exists_cons_of_ne_nil line.name_ne
  have htoken := line.name_token
  rw [hname] at hroom htoken ⊢
  rw [List.length_cons] at hroom ⊢
  have hc : token c ≠ 0 := htoken c List.mem_cons_self
  obtain ⟨hblank, hcr, hlf⟩ := of_token_ne hc
  -- the first character
  obtain ⟨q, hfirst, hstate, hok, hflags, hlength, hnread, hrequest, hscan⟩ : ∃ q : HttpParser,
      p.step c = .next (p.owed ++ [p.fieldByte c]) q ∧ q.state = .headerField ∧ q.httpErrno = .ok ∧
      q.flags = f.flags ∧ q.contentLength = f.contentLength ∧ q.nread = n + 1 ∧
      (q.httpMajor, q.httpMinor, q.method, q.upgrade) = r ∧ NameScan [c] q.headerState q.index := by
    refine ⟨({ p with state := .headerFieldStart, flags := f.flags, nread := n + 1 } :
      HttpParser).startName (token c), ?_, rfl, h.ok, rfl, h.contentLength, rfl, h.request,
      nameScan_startName _ c⟩
    rw [h.step hblank (by omega), headerFieldStartStep, if_neg hcr, if_neg hlf, if_neg hc,
      foldr_after_next]
    rfl
  -- the other ones, the colon and the blanks
  obtain ⟨s, index, hmore, hscan'⟩ := HttpParser.reads_name hstate hscan hok
    (fun d hd => htoken d (List.mem_cons_of_mem _ hd)) (by omega)
  have hcolon := step_colon
    (p := { q with headerState := s, index, nread := q.nread + name.length }) hstate
    (by dsimp only; omega)
  have hblanks := reads_blanks (p := { q with
    state := .headerValueDiscardWs
    headerState := s
    index
    nread := q.nread + name.length + 1 }) rfl line.blanks_blank (by dsimp only; omega)
  refine ⟨{ q with
    state := .headerValueDiscardWs
    headerState := s
    index
    nread := q.nread + name.length + 1 + line.blanks.length }, ?_,
    rfl, hok, hscan'.settled_eq, hflags, hlength, ?_, hrequest⟩
  · have hreads := Reads.cons hfirst (hmore.append (.cons hcolon hblanks))
    have hfields (d : UInt8) : q.fieldByte d = .headerField r.1 r.2.1 [d] := by
      rw [fieldByte, ← hrequest]
    have hfield : p.fieldByte c = .headerField r.1 r.2.1 [c] := by
      rw [fieldByte, ← h.request]
    have hmap : name.map q.fieldByte = name.map fun d => .headerField r.1 r.2.1 [d] :=
      List.map_congr_left fun d _ => hfields d
    rw [hfield, hmap] at hreads
    simpa using hreads
  · dsimp only
    omega

/-- **The value of a line.** What the line says is what its name and its value do. -/
theorem ValueStart.reads_value {name value : Bytes} {f' : Framing}
    (h : p.ValueStart (.ofName name) f n r) (hblank : ∀ c ∈ value.head?, isBlankChar c = false)
    (hvalue : ∀ c ∈ value, c ≠ cr ∧ c ≠ lf) (hline : f.line name value = some f')
    (hroom : n + value.length + 2 ≤ httpMaxHeaderSize) :
    ∃ cs q, p.Reads (value ++ crlf) cs q ∧ q.LineStart f' (n + value.length + 2) r ∧
      SameTexts (cs ++ q.owed) [.headerValue value] := by
  obtain ⟨hstate, hok, hkind, hflags, hlength, rfl, hrequest⟩ := h
  cases value with
  | nil =>
    obtain rfl : f = f' := by simpa [Framing.line] using hline
    refine ⟨[], _, reads_crlf_noValue hstate hok hroom, ?_, ?_⟩
    · exact ⟨Or.inr (Or.inr rfl), hok, hflags, hlength, rfl, hrequest⟩
    · exact .refl _
  | cons c rest =>
    rw [List.length_cons] at hroom ⊢
    obtain ⟨hcr, hlf⟩ := hvalue c List.mem_cons_self
    have hc : isBlankChar c = false := hblank c rfl
    have hvalid (hnumber : HeaderState.ofName name = .contentLength) :
        contentLengthOf ([c] ++ rest) ≠ none := by
      intro hnone
      rw [List.singleton_append] at hnone
      rw [Framing.line, if_neg (List.cons_ne_nil c rest), hnumber, hnone] at hline
      simp at hline
    -- the first character
    obtain ⟨s, m, upgrade, hstart, hscan⟩ := valueScan_startValue (p := p.counted) hkind hflags
      hlength hc fun hnumber hnone => hvalid hnumber (contentLengthOf_append hnone rest)
    obtain ⟨q, hfirst, hstate', hok', hscan', hnread, hrequest'⟩ : ∃ q : HttpParser,
        p.step c = .next [.headerValue [c]] q ∧ q.state = .headerValue ∧ q.httpErrno = .ok ∧
        q.ValueScan (.ofName name) f [c] ∧ q.nread = p.nread + 1 ∧
        (q.httpMajor, q.httpMinor, q.method, q.upgrade) = r := by
      refine ⟨p.counted.startValue c, ?_, by rw [hstart], by rw [hstart]; exact hok, hscan,
        by rw [hstart]; rfl, by rw [hstart]; exact hrequest⟩
      rw [step_headerValueDiscardWs hstate (by omega), headerValueDiscardWsStep,
        if_neg (by simp [hc]), if_neg hcr, if_neg hlf, headerValueStartStep, accept, if_pos]
      rw [hstart]
      exact hok
    -- the other ones
    obtain ⟨s', index, m', hmore, hscan''⟩ := HttpParser.reads_value hstate' hok' hscan'
      (fun d hd => hvalue d (List.mem_cons_of_mem _ hd)) hvalid (by omega)
    -- the end of the line
    have hend (q : HttpParser) (hstate : q.state = .headerValue) (hok : q.httpErrno = .ok)
        (hroom : q.nread + 2 ≤ httpMaxHeaderSize) :
        q.Reads crlf [] { q with state := .headerValueLws, nread := q.nread + 2 } := by
      have hcr : q.step cr =
          .next [] { q with state := .headerAlmostDone, nread := q.nread + 1 } := by
        rw [step_headerValue hstate (by omega), headerValueStep, if_pos rfl]
        rfl
      have hlf : ({ q with state := .headerAlmostDone, nread := q.nread + 1 } :
          HttpParser).step lf =
          .next [] { q with state := .headerValueLws, nread := q.nread + 2 } :=
        step_plain trivial rfl (by dsimp only; omega)
          (by simp [plainCase, strictCheck, counted]) hok
      exact .cons hcr (.single hlf)
    have hfound := hscan''.line (by simp)
    rw [List.singleton_append, hline, Option.some.injEq] at hfound
    refine ⟨[.headerValue [c]] ++ (rest.map fun d => .headerValue [d]), { q with
      state := .headerValueLws
      headerState := s'
      index
      contentLength := m'
      nread := q.nread + rest.length + 2 }, ?_,
        ⟨Or.inr (Or.inl rfl), hok', ?_, ?_, ?_, hrequest'⟩, ?_⟩
    · have hreads := Reads.cons hfirst (hmore.append (hend _ hstate' hok' (by dsimp only; omega)))
      simpa using hreads
    · rw [hfound, atLine]
      dsimp only
      rw [endHeader_flags, endHeader_flags]
    · rw [hfound]
    · dsimp only
      omega
    · have howed : ({ q with
          state := .headerValueLws
          headerState := s'
          index
          contentLength := m'
          nread := q.nread + rest.length + 2 } : HttpParser).owed = [] := by
        rw [owed, if_neg (by simp)]
      rw [howed, List.append_nil]
      exact TextKind.sameTexts_pieces .headerValue (List.cons_ne_nil c rest)

/-- **A header line.** -/
theorem LineStart.reads_line (h : p.LineStart f n r) {line : WrittenLine} {f' : Framing}
    (hline : f.line line.name line.value = some f')
    (hroom : n + line.bytes.length ≤ httpMaxHeaderSize) :
    ∃ cs q, p.Reads line.bytes cs q ∧ q.LineStart f' (n + line.bytes.length) r ∧
      SameTexts (cs ++ q.owed) (p.owed ++ line.parsed.callbacks r.1 r.2.1) := by
  have hlength : line.bytes.length = line.name.length + 1 + line.blanks.length +
      line.value.length + 2 := by
    simp only [WrittenLine.bytes, List.length_append, List.length_cons, crlf, List.length_nil]
    omega
  rw [hlength] at hroom ⊢
  obtain ⟨q, hname, hq⟩ := h.reads_name line (by omega)
  obtain ⟨cs, q', hvalue, hq', hsame⟩ :=
    hq.reads_value line.value_blank line.value_line hline (by omega)
  refine ⟨p.owed ++ (line.name.map fun c => .headerField r.1 r.2.1 [c]) ++ cs, q', ?_, ?_, ?_⟩
  · have hreads := hname.append hvalue
    rwa [← List.append_assoc] at hreads
  · have hn : n + (line.name.length + 1 + line.blanks.length + line.value.length + 2) =
        n + line.name.length + 1 + line.blanks.length + line.value.length + 2 := by omega
    rwa [hn]
  · rw [List.append_assoc, List.append_assoc]
    refine SameTexts.append_right ?_ p.owed
    exact (TextKind.sameTexts_pieces (.headerField r.1 r.2.1) line.name_ne).append hsame

/-- Some bytes lead to an error, whatever follows them. -/
def Fails (p : HttpParser) (bytes : Bytes) (e : HttpErrno) : Prop :=
  ∀ rest, (p.steps (bytes ++ rest)).parser.httpErrno = e

/-- A byte that is the first one of an error. -/
theorem Fails.of_stop {e : HttpErrno} {q : HttpParser} (cbs : List ParserCallback)
    (hstep : p.step ch = .stop cbs (q.fail e)) (more : Bytes) : p.Fails (ch :: more) e := by
  intro rest
  rw [List.cons_append, steps, hstep]
  rfl

/-- Bytes in front of an error. -/
theorem Reads.fails {q : HttpParser} {bytes more : Bytes} {cbs : List ParserCallback}
    {e : HttpErrno}
    (hreads : p.Reads bytes cbs q) (h : q.Fails more e) : p.Fails (bytes ++ more) e := by
  intro rest
  rw [List.append_assoc, hreads.steps_append]
  exact h rest

/-- The rest of a value that is no number. -/
theorem fails_value (hstate : p.state = .headerValue) (hok : p.httpErrno = .ok)
    (hscan : p.ValueScan .contentLength f value) (hline : ∀ c ∈ more, c ≠ cr ∧ c ≠ lf)
    (hinvalid : contentLengthOf (value ++ more) = none)
    (hroom : p.nread + more.length ≤ httpMaxHeaderSize) (behind : Bytes) :
    p.Fails (more ++ behind) .invalidContentLength := by
  induction more generalizing p value with
  | nil =>
    rw [ValueScan, if_pos rfl] at hscan
    rw [List.append_nil, hscan.2.2] at hinvalid
    simp at hinvalid
  | cons c more ih =>
    rw [List.length_cons] at hroom
    obtain ⟨hcr, hlf⟩ := hline c List.mem_cons_self
    by_cases hhere : contentLengthOf (value ++ [c]) = none
    · refine .of_stop (q := p.counted) [] ?_ _
      rw [step_headerValue hstate (by omega), headerValueStep, if_neg hcr, if_neg hlf,
        matchValue_invalid hscan.counted hhere]
      exact acceptCase_fail (by decide)
    · obtain ⟨h, index, n, hmatch, hscan'⟩ := valueScan_matchValue hscan.counted fun _ => hhere
      have hstep : p.step c = .next [.headerValue [c]]
          { p with headerState := h, index, contentLength := n, nread := p.nread + 1 } := by
        rw [step_headerValue hstate (by omega), headerValueStep, if_neg hcr, if_neg hlf, hmatch]
        exact if_pos hok
      have hrest := ih (p := { p with
        headerState := h, index, contentLength := n, nread := p.nread + 1 }) hstate hok hscan'
        (fun d hd => hline d (List.mem_cons_of_mem _ hd)) (by simpa using hinvalid)
        (by dsimp only; omega)
      exact (Reads.single hstep).fails hrest

/-- **A header line** that says nothing is an error. -/
theorem LineStart.fails_line (h : p.LineStart f n r) {line : WrittenLine}
    (hline : f.line line.name line.value = none)
    (hroom : n + line.bytes.length ≤ httpMaxHeaderSize) :
    p.Fails line.bytes .invalidContentLength := by
  have hlength : line.bytes.length = line.name.length + 1 + line.blanks.length +
      line.value.length + 2 := by
    simp only [WrittenLine.bytes, List.length_append, List.length_cons, crlf, List.length_nil]
    omega
  -- the line is about the length, and its value is no number
  have hvalue : line.value ≠ [] := by
    intro hnil
    simp [Framing.line, hnil] at hline
  have hnumber : HeaderState.ofName line.name = .contentLength ∧
      contentLengthOf line.value = none := by
    rw [Framing.line, if_neg hvalue] at hline
    split at hline
    · simp at hline
    · next hkind => exact ⟨hkind, Option.map_eq_none_iff.mp hline⟩
    · simp at hline
  obtain ⟨c, rest, hcons⟩ := List.exists_cons_of_ne_nil hvalue
  obtain ⟨q, hname, hstate, hok, hkind, hflags, hcontentLength, hnread, _⟩ :=
    h.reads_name line (by omega)
  have hblank : isBlankChar c = false := line.value_blank c (by rw [hcons]; rfl)
  have hvalid := line.value_line
  rw [hcons] at hnumber hvalid
  rw [hcons, List.length_cons] at hlength
  obtain ⟨hcr, hlf⟩ := hvalid c List.mem_cons_self
  rw [hnumber.1] at hkind
  have hstep : q.step c = (q.counted.startValue c).accept [.headerValue [c]] := by
    rw [step_headerValueDiscardWs hstate (by omega), headerValueDiscardWsStep,
      if_neg (by simp [hblank]), if_neg hcr, if_neg hlf, headerValueStartStep]
  have hrest : q.Fails (c :: (rest ++ crlf)) .invalidContentLength := by
    by_cases hfirst : contentLengthOf [c] = none
    · have hstart : q.counted.startValue c = ({ q.counted with state := .headerValue, index := 0 } :
          HttpParser).fail .invalidContentLength := by
        have hheader : q.headerState = .contentLength := by
          cases hs : q.headerState <;> rw [hs] at hkind <;> simp [HeaderState.settled] at hkind
        have hdigit : isNum c = false := by
          by_contra hdigit
          have hzero : contentLengthOf [] = some 0 := by decide
          have hone := contentLengthOf_digit hzero (by simpa using hdigit)
          simp [hfirst, ullongMax] at hone
        simp [startValue, counted, hheader, hdigit]
      refine .of_stop (q := { q.counted with state := .headerValue, index := 0 }) [] ?_ _
      rw [hstep, hstart]
      exact if_neg (by simp [fail])
    · obtain ⟨s, m, upgrade, hstart, hscan⟩ := valueScan_startValue (p := q.counted) (f := f) hkind
        hflags hcontentLength hblank fun _ => hfirst
      have hnext : q.step c = .next [.headerValue [c]] (q.counted.startValue c) := by
        rw [hstep]
        exact if_pos (by rw [hstart]; exact hok)
      have hline (d : UInt8) (hd : d ∈ rest) := hvalid d (List.mem_cons_of_mem _ hd)
      have hmore := fails_value (by rw [hstart]) (by rw [hstart]; exact hok) hscan hline hnumber.2
        (by rw [hstart]; simp only [counted]; omega) crlf
      exact (Reads.single hnext).fails hmore
  have hall := hname.fails hrest
  rw [← List.cons_append, ← hcons, ← List.append_assoc] at hall
  exact hall

/-- **Header lines** that say something together. -/
theorem LineStart.reads_lines (h : p.LineStart f n r) {lines : List WrittenLine} {f' : Framing}
    (hlines : f.lines lines = some f')
    (hroom : n + (lines.flatMap WrittenLine.bytes).length ≤ httpMaxHeaderSize) :
    ∃ cs q, p.Reads (lines.flatMap WrittenLine.bytes) cs q ∧
      q.LineStart f' (n + (lines.flatMap WrittenLine.bytes).length) r ∧
      SameTexts (cs ++ q.owed)
        (p.owed ++ lines.flatMap fun line => line.parsed.callbacks r.1 r.2.1) := by
  induction lines generalizing p f n with
  | nil =>
    obtain rfl : f = f' := by simpa [Framing.lines] using hlines
    refine ⟨[], p, .nil p, h, ?_⟩
    rw [List.nil_append, List.flatMap_nil, List.append_nil]
    exact .refl _
  | cons line lines ih =>
    rw [List.flatMap_cons, List.length_append] at hroom ⊢
    obtain ⟨f₁, hline, hlines⟩ : ∃ f₁, f.line line.name line.value = some f₁ ∧
        f₁.lines lines = some f' := by
      rw [Framing.lines, List.foldlM_cons] at hlines
      exact Option.bind_eq_some_iff.mp hlines
    obtain ⟨cs, q, hreads, hq, hsame⟩ := h.reads_line hline (by omega)
    obtain ⟨cs', q', hreads', hq', hsame'⟩ := ih hq hlines (by omega)
    refine ⟨cs ++ cs', q', hreads.append hreads', by rwa [← Nat.add_assoc], ?_⟩
    rw [List.flatMap_cons, List.append_assoc, ← List.append_assoc p.owed]
    refine (hsame'.append_right cs).trans ?_
    rw [← List.append_assoc]
    exact hsame.append_left _

/-- **Header lines** of which one says nothing. -/
theorem LineStart.fails_lines (h : p.LineStart f n r) {lines : List WrittenLine}
    (hlines : f.lines lines = none)
    (hroom : n + (lines.flatMap WrittenLine.bytes).length ≤ httpMaxHeaderSize) :
    p.Fails (lines.flatMap WrittenLine.bytes) .invalidContentLength := by
  induction lines generalizing p f n with
  | nil => simp [Framing.lines] at hlines
  | cons line lines ih =>
    rw [List.flatMap_cons, List.length_append] at hroom
    rw [List.flatMap_cons]
    rw [Framing.lines, List.foldlM_cons] at hlines
    cases hline : f.line line.name line.value with
    | none =>
      intro rest
      rw [List.append_assoc]
      exact h.fails_line hline (by omega) _
    | some f' =>
      rw [hline] at hlines
      obtain ⟨cs, q, hreads, hq, _⟩ := h.reads_line hline (by omega)
      exact hreads.fails (ih hq hlines (by omega))

end HttpParser

end Khttp
