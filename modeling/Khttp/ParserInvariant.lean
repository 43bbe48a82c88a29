import Khttp.HttpParserExecute

/-!
# What holds of the parser between two bytes

The assertions of `http_parser_execute` and the widths of the fields of `http_parser`: whatever
the callbacks return, from a parser that was initialised no assertion fails, no text is read
behind its end and no field outgrows its bits.
-/

namespace Khttp

open Lib

/-- The states of `header_state` within a name, with the `index` that belongs to them. -/
def HeaderState.InName (h : HeaderState) (index : ℕ) : Prop :=
  match h with
  | .general | .connection | .contentLength | .transferEncoding | .upgrade => True
  | .c => index = 0
  | .co => index = 1
  | .con => index = 2
  | .matchingConnection | .matchingProxyConnection | .matchingContentLength
  | .matchingTransferEncoding | .matchingUpgrade => index + 1 < h.text.length
  | .matchingTransferEncodingChunked | .matchingConnectionKeepAlive | .matchingConnectionClose
  | .transferEncodingChunked | .connectionKeepAlive | .connectionClose => False

/-- The states of `header_state` within a value, with the `index` that belongs to them. -/
def HeaderState.InValue (h : HeaderState) (index : ℕ) : Prop :=
  match h with
  | .general | .contentLength | .transferEncodingChunked | .connectionKeepAlive
  | .connectionClose => True
  | .matchingTransferEncodingChunked | .matchingConnectionKeepAlive | .matchingConnectionClose =>
    index + 1 < h.text.length
  | _ => False

/-- The states that `plainCase` handles. -/
def ParserState.IsPlain : ParserState → Prop
  | .startReq | .reqUrl _ | .headerFieldStart | .headerField | .headerValueDiscardWs
  | .headerValueDiscardLws | .headerValueStart | .headerValue | .headerValueLws
  | .headersAlmostDone | .headersDone | .chunkData | .chunkDataAlmostDone | .bodyIdentity
  | .messageDone => False
  | _ => True

/-- Numbers that fit the fields of `http_parser`. -/
structure FieldsFit (nread index contentLength httpMajor httpMinor : ℕ) : Prop where
  /-- `nread` has 32 bits. -/
  nread_le : nread ≤ httpMaxHeaderSize
  /-- `index` has eight bits. -/
  index_le : index ≤ 17
  /-- `content_length` has 64 bits. -/
  contentLength_le : contentLength ≤ ullongMax
  /-- `http_major` has 16 bits. -/
  httpMajor_le : httpMajor ≤ 999
  /-- `http_minor` has 16 bits. -/
  httpMinor_le : httpMinor ≤ 999

namespace HttpParser

/-- The fields of the parser fit their bits. -/
abbrev Fits (p : HttpParser) : Prop :=
  FieldsFit p.nread p.index p.contentLength p.httpMajor p.httpMinor

/-- What a state of the parser requires of its other fields; a chunk size starts where `nread`
has this value. -/
def InState (nread : ℕ) (p : HttpParser) : Prop :=
  match p.state with
  | .reqMethod => p.index ≤ (httpMethodStr p.method).length
  | .reqUrl u => u ≠ .dead
  | .headerField => p.headerState.InName p.index
  | .headerValue => p.headerState.InValue p.index
  | .chunkSizeStart => p.nread = nread ∧ p.flags.chunked = true
  | .chunkSize | .chunkParameters | .chunkSizeAlmostDone =>
    p.flags.chunked = true ∧ p.contentLength < ullongMax
  | .chunkData => p.flags.chunked = true ∧ p.contentLength ≠ 0 ∧ p.contentLength < ullongMax
  | .chunkDataAlmostDone => p.flags.chunked = true ∧ p.contentLength = 0
  | .chunkDataDone => p.flags.chunked = true
  | .bodyIdentity => p.contentLength ≠ 0 ∧ p.contentLength < ullongMax
  | _ => True

/-- What holds of a parser without an error: between two bytes with zero, and behind the check
of `nread` with one. -/
structure SoundAt (nread : ℕ) (p : HttpParser) : Prop where
  /-- There is no error. -/
  ok : p.httpErrno = .ok
  /-- The fields fit. -/
  fits : p.Fits
  /-- They are as the state requires. -/
  inState : p.InState nread

/-- What holds of a parser without an error between two bytes. -/
abbrev Sound (p : HttpParser) : Prop := p.SoundAt 0

/-- What a case may leave behind: a sound parser or an error. -/
def Settled (p : HttpParser) : Prop := p.httpErrno = .ok → p.Sound

/-- A parser that was initialised. -/
theorem sound_init : init.Sound :=
  ⟨by decide, ⟨by decide, by decide, by decide, by decide, by decide⟩, trivial⟩

/-- An error leaves nothing to show. -/
theorem settled_fail (p : HttpParser) {e : HttpErrno} (he : e ≠ .ok) : (p.fail e).Settled :=
  fun h => absurd h he

/-- A sound parser. -/
theorem SoundAt.settled {p : HttpParser} (h : p.Sound) : p.Settled := fun _ => h

/-- The value of a digit. -/
theorem digit_le {ch : UInt8} (h : isNum ch = true) : (ch - byte '0').toNat ≤ 9 := by
  unfold isNum at h
  simp only [Bool.and_eq_true, decide_eq_true_eq, UInt8.le_iff_toNat_le] at h
  have hzero : (byte '0').toNat = 48 := by decide
  have hnine : (byte '9').toNat = 57 := by decide
  rw [UInt8.toNat_sub_of_le _ _ (UInt8.le_iff_toNat_le.mpr h.1)]
  omega

/-- The value of a hexadecimal digit. -/
theorem unhex_lt {ch : UInt8} {v : ℕ} (h : unhex ch = some v) : v < 16 := by
  have hA : (byte 'A').toNat = 65 := by decide
  have hF : (byte 'F').toNat = 70 := by decide
  have ha : (byte 'a').toNat = 97 := by decide
  have hf : (byte 'f').toNat = 102 := by decide
  unfold unhex at h
  split at h
  · next hdigit =>
    obtain rfl := Option.some.inj h
    have := digit_le hdigit
    omega
  · split at h
    · next hupper =>
      obtain rfl := Option.some.inj h
      simp only [Bool.and_eq_true, decide_eq_true_eq, UInt8.le_iff_toNat_le] at hupper
      rw [UInt8.toNat_add, UInt8.toNat_sub_of_le _ _ (UInt8.le_iff_toNat_le.mpr hupper.1)]
      simp
      omega
    · split at h
      · next hlower =>
        obtain rfl := Option.some.inj h
        simp only [Bool.and_eq_true, decide_eq_true_eq, UInt8.le_iff_toNat_le] at hlower
        rw [UInt8.toNat_add, UInt8.toNat_sub_of_le _ _ (UInt8.le_iff_toNat_le.mpr hlower.1)]
        simp
        omega
      · split at h
        · obtain rfl := Option.some.inj h
          decide
        · simp at h

/-- Another method begins with the characters that were read. -/
theorem otherMethod_spec {method method' : HttpMethod} {index : ℕ} {ch : UInt8}
    (h : otherMethod method index ch = some method') :
    (httpMethodStr method').take (index + 1) = (httpMethodStr method).take index ++ [ch] := by
  unfold otherMethod at h
  -- in every branch the method, the index and the character are known
  split_ifs at h <;> simp only [Option.some.injEq] at h <;> subst h <;> simp_all <;> decide

/-- The text of a method has at most 11 characters. -/
theorem length_httpMethodStr_le (method : HttpMethod) : (httpMethodStr method).length ≤ 11 := by
  cases method <;> decide

section Cases

variable {p : HttpParser} {ch : UInt8}

/-- A parser whose new state requires nothing. -/
theorem SoundAt.setState {n m : ℕ} (h : p.SoundAt n) {state : ParserState}
    (hstate : InState m { p with state }) : SoundAt m { p with state } :=
  ⟨h.ok, h.fits, hstate⟩

/-- `s_req_method` stays within the text of the method. -/
theorem reqMethod_settled (h : p.SoundAt 1) (hstate : p.state = .reqMethod) :
    ∃ p', p.reqMethod ch = some p' ∧ p'.Settled := by
  have hindex : p.index ≤ (httpMethodStr p.method).length := by
    simpa only [InState, hstate] using h.inState
  have hlength := length_httpMethodStr_le p.method
  have hfits : FieldsFit p.nread (p.index + 1) p.contentLength p.httpMajor p.httpMinor :=
    { h.fits with index_le := by omega }
  unfold reqMethod
  split
  · exact ⟨_, rfl, settled_fail _ (by decide)⟩
  · next hzero =>
    have hlt : p.index < (httpMethodStr p.method ++ [0]).length := by
      rw [List.length_append, List.length_singleton]
      omega
    rw [List.getElem?_eq_getElem hlt, Option.map_some]
    refine ⟨_, rfl, ?_⟩
    split
    · exact SoundAt.settled ⟨h.ok, hfits, by simp [InState]⟩
    · split
      · next hmatch =>
        refine SoundAt.settled ⟨h.ok, hfits, ?_⟩
        simp only [InState, hstate]
        -- the byte is not zero, so it is not the end of the text
        by_contra hlong
        have hend : p.index = (httpMethodStr p.method).length := by omega
        apply hzero
        rw [hmatch, List.getElem_append_right (by omega)]
        simp [hend]
      · split
        · next method' hother =>
          refine SoundAt.settled ⟨h.ok, hfits, ?_⟩
          simp only [InState, hstate]
          have htake := congrArg List.length (otherMethod_spec hother)
          simp only [List.length_take, List.length_append, List.length_singleton] at htake
          omega
        · exact settled_fail _ (by decide)

/-- A number of a version stays below 1000. -/
theorem versionDigit_settled {number : ℕ} {set : HttpParser → ℕ → HttpParser}
    (h : ∀ n, n ≤ 999 → (set p n).Settled) : (p.versionDigit ch number set).Settled := by
  unfold versionDigit
  split
  · dsimp only
    split
    · exact settled_fail _ (by decide)
    · next hle => exact h _ (by omega)
  · exact settled_fail _ (by decide)

/-- A check of the strict mode. -/
theorem strictCheck_settled (h : p.SoundAt 1) {c : UInt8} {next : ParserState}
    (hnext : InState 0 { p with state := next }) : (p.strictCheck ch c next).Settled := by
  unfold strictCheck
  split
  · exact (h.setState hnext).settled
  · exact settled_fail _ (by decide)

/-- The size of a chunk stays below `ULLONG_MAX`. -/
theorem chunkSize_settled (h : p.SoundAt 1) (hstate : p.state = .chunkSize) :
    (p.chunkSize ch).Settled := by
  have hin : p.flags.chunked = true ∧ p.contentLength < ullongMax := by
    simpa only [InState, hstate] using h.inState
  unfold chunkSize
  split
  · exact (h.setState (by simpa [InState] using hin)).settled
  · split
    · split
      · exact (h.setState (by simpa [InState] using hin)).settled
      · exact settled_fail _ (by decide)
    · next v hv =>
      split
      · exact settled_fail _ (by decide)
      · next hle =>
        have hlt := unhex_lt hv
        have hroom : p.contentLength * 16 + v < ullongMax := by
          unfold ullongMax at hle ⊢
          omega
        exact SoundAt.settled ⟨h.ok, { h.fits with contentLength_le := hroom.le },
          by simpa [InState, hstate] using ⟨hin.1, hroom⟩⟩

/-- **Plain cases.** They keep a parser sound or end with an error. -/
theorem plainCase_settled (h : p.SoundAt 1) (hplain : p.state.IsPlain) :
    ∃ p', p.plainCase ch = some p' ∧ p'.Settled := by
  have hin := h.inState
  unfold plainCase
  cases hstate : p.state with
  | dead =>
    refine ⟨_, rfl, ?_⟩
    split
    · exact SoundAt.settled ⟨h.ok, h.fits, by simp [InState, hstate]⟩
    · exact settled_fail _ (by decide)
  | reqMethod => exact reqMethod_settled h hstate
  | reqHttpStart =>
    refine ⟨_, rfl, ?_⟩
    split
    · exact (h.setState (by simp [InState])).settled
    · split
      · exact SoundAt.settled ⟨h.ok, h.fits, by simp [InState, hstate]⟩
      · exact settled_fail _ (by decide)
  | reqHttpH | reqHttpHT | reqHttpHTT | reqHttpHTTP | headerValueDiscardWsAlmostDone
  | headerAlmostDone =>
    exact ⟨_, rfl, strictCheck_settled h (by simp [InState])⟩
  | reqFirstHttpMajor =>
    refine ⟨_, rfl, ?_⟩
    split
    · next hdigit =>
      have hle : (ch - byte '0').toNat ≤ 9 := by
        refine digit_le ?_
        simp only [isNum, Bool.and_eq_true, decide_eq_true_eq]
        exact ⟨UInt8.le_trans (by decide : byte '0' ≤ byte '1') hdigit.1, hdigit.2⟩
      exact SoundAt.settled ⟨h.ok, { h.fits with httpMajor_le := hle.trans (by decide) },
        by simp [InState]⟩
    · exact settled_fail _ (by decide)
  | reqHttpMajor =>
    refine ⟨_, rfl, ?_⟩
    split
    · exact (h.setState (by simp [InState])).settled
    · exact versionDigit_settled fun n hn =>
        SoundAt.settled ⟨h.ok, { h.fits with httpMajor_le := hn }, by simp [InState, hstate]⟩
  | reqFirstHttpMinor =>
    refine ⟨_, rfl, ?_⟩
    split
    · next hdigit =>
      have hle := digit_le hdigit
      exact SoundAt.settled ⟨h.ok, { h.fits with httpMinor_le := hle.trans (by decide) },
        by simp [InState]⟩
    · exact settled_fail _ (by decide)
  | reqHttpMinor =>
    refine ⟨_, rfl, ?_⟩
    split
    · exact (h.setState (by simp [InState])).settled
    · split
      · exact (h.setState (by simp [InState])).settled
      · exact versionDigit_settled fun n hn =>
          SoundAt.settled ⟨h.ok, { h.fits with httpMinor_le := hn }, by simp [InState, hstate]⟩
  | reqLineAlmostDone =>
    refine ⟨_, rfl, ?_⟩
    split
    · exact (h.setState (by simp [InState])).settled
    · exact settled_fail _ (by decide)
  | chunkSizeStart =>
    have hin : p.nread = 1 ∧ p.flags.chunked = true := by simpa only [InState, hstate] using hin
    dsimp only [chunkSizeStart]
    rw [if_pos hin]
    refine ⟨_, rfl, ?_⟩
    split
    · exact settled_fail _ (by decide)
    · next v hv =>
      have hlt : v < ullongMax := (unhex_lt hv).trans (by decide)
      exact SoundAt.settled ⟨h.ok, { h.fits with contentLength_le := hlt.le }, ⟨hin.2, hlt⟩⟩
  | chunkSize =>
    have hin : p.flags.chunked = true ∧ p.contentLength < ullongMax := by
      simpa only [InState, hstate] using hin
    exact ⟨_, if_pos hin.1, chunkSize_settled h hstate⟩
  | chunkParameters =>
    have hin : p.flags.chunked = true ∧ p.contentLength < ullongMax := by
      simpa only [InState, hstate] using hin
    refine ⟨_, if_pos hin.1, ?_⟩
    split
    · exact (h.setState (by simpa [InState] using hin)).settled
    · exact SoundAt.settled ⟨h.ok, h.fits, by simpa [InState, hstate] using hin⟩
  | chunkSizeAlmostDone =>
    have hin : p.flags.chunked = true ∧ p.contentLength < ullongMax := by
      simpa only [InState, hstate] using hin
    refine ⟨_, if_pos hin.1, ?_⟩
    have hfits : FieldsFit 0 p.index p.contentLength p.httpMajor p.httpMinor :=
      { h.fits with nread_le := Nat.zero_le _ }
    unfold chunkSizeAlmostDone
    split
    · dsimp only
      split
      · exact SoundAt.settled ⟨h.ok, hfits, by simp [InState]⟩
      · next hne => exact SoundAt.settled ⟨h.ok, hfits, ⟨hin.1, hne, hin.2⟩⟩
    · exact settled_fail _ (by decide)
  | chunkDataDone =>
    have hin : p.flags.chunked = true := by simpa only [InState, hstate] using hin
    refine ⟨_, if_pos hin, ?_⟩
    split
    · exact SoundAt.settled ⟨h.ok, { h.fits with nread_le := Nat.zero_le _ }, rfl, hin⟩
    · exact settled_fail _ (by decide)
  | startReq | reqUrl | headerFieldStart | headerField | headerValueDiscardWs
  | headerValueDiscardLws | headerValueStart | headerValue | headerValueLws | headersAlmostDone
  | headersDone | chunkData | chunkDataAlmostDone | bodyIdentity | messageDone =>
    simp [ParserState.IsPlain, hstate] at hplain

/-- A text that is looked for. -/
theorem matchText_spec (h : p.SoundAt 1) (c : UInt8) (found : HeaderState)
    (hindex : p.index + 1 < p.headerState.text.length) :
    ∃ p', p.matchText c found = some p' ∧ p'.httpErrno = .ok ∧ p'.state = p.state ∧
      FieldsFit p'.nread p.index p'.contentLength p'.httpMajor p'.httpMinor ∧
      p'.index = p.index + 1 ∧
      (p'.headerState = .general ∨ p'.headerState = found ∨
        p'.headerState = p.headerState ∧ p'.index + 1 < p.headerState.text.length) := by
  have hlt : p.index + 1 < (p.headerState.text ++ [0]).length := by
    rw [List.length_append, List.length_singleton]
    omega
  unfold matchText
  dsimp only
  rw [if_neg (by omega), List.getElem?_eq_getElem hlt, Option.map_some]
  refine ⟨_, rfl, ?_⟩
  split
  · exact ⟨h.ok, rfl, h.fits, rfl, Or.inl rfl⟩
  · split
    · exact ⟨h.ok, rfl, h.fits, rfl, Or.inr (Or.inl rfl)⟩
    · next hlast =>
      have hnext : p.index + 1 + 1 < p.headerState.text.length := by
        have hne : p.index + 1 ≠ p.headerState.text.length - 1 := hlast
        omega
      exact ⟨h.ok, rfl, h.fits, rfl, Or.inr (Or.inr ⟨rfl, hnext⟩)⟩

/-- The texts that are looked for have at most 17 characters. -/
theorem length_text_le (s : HeaderState) : s.text.length ≤ 17 := by
  cases s <;> decide

/-- `header_state` within a name. -/
theorem matchName_settled (h : p.SoundAt 1) (hstate : p.state = .headerField) (c : UInt8) :
    ∃ p', p.matchName c ch = some p' ∧ p'.Settled := by
  have hin : p.headerState.InName p.index := by simpa only [InState, hstate] using h.inState
  have htext := length_text_le p.headerState
  have hmatch (found : HeaderState) (hfound : ∀ i, found.InName i)
      (hin : p.index + 1 < p.headerState.text.length)
      (hname : ∀ i, i + 1 < p.headerState.text.length → p.headerState.InName i) :
      ∃ p', p.matchText c found = some p' ∧ p'.Settled := by
    obtain ⟨p', hp', hok, hstate', hfits, hindex, hnext⟩ := matchText_spec h c found hin
    refine ⟨p', hp', SoundAt.settled ⟨hok, { hfits with index_le := by omega }, ?_⟩⟩
    simp only [InState, hstate', hstate]
    rcases hnext with hnext | hnext | ⟨hnext, hlt⟩
    · rw [hnext]
      trivial
    · rw [hnext]
      exact hfound _
    · rw [hnext]
      exact hname _ hlt
  unfold matchName
  cases hheader : p.headerState with
  | general =>
    exact ⟨_, rfl, SoundAt.settled
      ⟨h.ok, h.fits, by simp [InState, hstate, hheader, HeaderState.InName]⟩⟩
  | c | co | con =>
    simp only [hheader, HeaderState.InName] at hin
    have hindex : p.index + 1 ≤ 17 := by omega
    refine ⟨_, rfl, SoundAt.settled ⟨h.ok, { h.fits with index_le := hindex }, ?_⟩⟩
    simp only [InState, hstate, hin]
    split_ifs <;> simp [HeaderState.InName] <;> decide
  | matchingConnection | matchingProxyConnection | matchingContentLength
  | matchingTransferEncoding | matchingUpgrade =>
    simp only [hheader, HeaderState.InName] at hin hmatch
    exact hmatch _ (fun _ => trivial) hin fun _ hi => hi
  | connection | contentLength | transferEncoding | upgrade =>
    refine ⟨_, rfl, ?_⟩
    split
    · exact SoundAt.settled ⟨h.ok, h.fits, by simp [InState, hstate, HeaderState.InName]⟩
    · exact SoundAt.settled ⟨h.ok, h.fits, by simp [InState, hstate, hheader, HeaderState.InName]⟩
  | matchingTransferEncodingChunked | matchingConnectionKeepAlive | matchingConnectionClose
  | transferEncodingChunked | connectionKeepAlive | connectionClose =>
    simp [hheader, HeaderState.InName] at hin

/-- The state stays as it is within a text that is looked for. -/
theorem matchText_state {c : UInt8} {found : HeaderState} {p' : HttpParser}
    (h : p.matchText c found = some p') : p'.state = p.state := by
  unfold matchText at h
  dsimp only at h
  split at h
  · obtain rfl := Option.some.inj h
    rfl
  · obtain ⟨expected, _, rfl⟩ := Option.map_eq_some_iff.mp h
    split_ifs <;> rfl

/-- The state stays as it is within a name. -/
theorem matchName_state {c : UInt8} {p' : HttpParser} (h : p.matchName c ch = some p') :
    p'.state = p.state := by
  unfold matchName at h
  split at h
  case h_5 | h_6 | h_7 | h_8 | h_9 => exact matchText_state h
  case h_1 | h_2 | h_3 | h_4 =>
    obtain rfl := Option.some.inj h
    rfl
  case h_14 | h_15 | h_16 | h_17 | h_18 | h_19 => simp at h
  all_goals
    obtain rfl := Option.some.inj h
    split_ifs <;> rfl

/-- `header_state` at the first character of a name. -/
theorem sound_startName {n : ℕ} (h : p.SoundAt n) (c : UInt8) : (p.startName c).Sound := by
  refine ⟨h.ok, { h.fits with index_le := Nat.zero_le _ }, ?_⟩
  simp only [InState, startName]
  split_ifs <;> simp [HeaderState.InName] <;> decide

/-- `header_state` at the first character of a value. -/
theorem startValue_settled {n : ℕ} (h : p.SoundAt n) (ch : UInt8) : (p.startValue ch).Settled := by
  have hfits : FieldsFit p.nread 0 p.contentLength p.httpMajor p.httpMinor :=
    { h.fits with index_le := Nat.zero_le _ }
  unfold startValue
  dsimp only
  split
  · exact SoundAt.settled ⟨h.ok, hfits, by simp [InState, HeaderState.InValue]⟩
  · refine SoundAt.settled ⟨h.ok, hfits, ?_⟩
    simp only [InState]
    split_ifs <;> simp [HeaderState.InValue]
    decide
  · next hheader =>
    split
    · next hdigit =>
      have hle := digit_le hdigit
      refine SoundAt.settled ⟨h.ok, { hfits with contentLength_le := ?_ }, ?_⟩
      · exact hle.trans (by decide)
      · simp [InState, hheader, HeaderState.InValue]
    · exact settled_fail _ (by decide)
  · refine SoundAt.settled ⟨h.ok, hfits, ?_⟩
    simp only [InState]
    split_ifs <;> simp [HeaderState.InValue] <;> decide
  · exact SoundAt.settled ⟨h.ok, hfits, by simp [InState, HeaderState.InValue]⟩

/-- A value has begun. -/
theorem startValue_state (p : HttpParser) (ch : UInt8) :
    (p.startValue ch).state = .headerValue := by
  unfold startValue
  dsimp only
  split
  case h_3 => split <;> rfl
  all_goals rfl

/-- The state stays as it is within a value. -/
theorem matchValue_state (hstate : p.state = .headerValue) {p' : HttpParser}
    (h : p.matchValue ch = some p') : p'.state = .headerValue := by
  unfold matchValue at h
  dsimp only at h
  split at h
  case h_5 | h_6 | h_7 => exact (matchText_state h).trans hstate
  case h_2 | h_3 => simp at h
  case h_4 =>
    obtain rfl := Option.some.inj h
    split_ifs <;> exact hstate
  all_goals
    obtain rfl := Option.some.inj h
    try split_ifs
    all_goals first | exact hstate | rfl

/-- `header_state` within a value. -/
theorem matchValue_settled (h : p.SoundAt 1) (hstate : p.state = .headerValue) :
    ∃ p', p.matchValue ch = some p' ∧ p'.Settled := by
  have hin : p.headerState.InValue p.index := by simpa only [InState, hstate] using h.inState
  have htext := length_text_le p.headerState
  have hmatch (found : HeaderState) (hfound : ∀ i, found.InValue i)
      (hin : p.index + 1 < p.headerState.text.length)
      (hname : ∀ i, i + 1 < p.headerState.text.length → p.headerState.InValue i) :
      ∃ p', p.matchText (lower ch) found = some p' ∧ p'.Settled := by
    obtain ⟨p', hp', hok, hstate', hfits, hindex, hnext⟩ := matchText_spec h (lower ch) found hin
    refine ⟨p', hp', SoundAt.settled ⟨hok, { hfits with index_le := by omega }, ?_⟩⟩
    simp only [InState, hstate', hstate]
    rcases hnext with hnext | hnext | ⟨hnext, hlt⟩
    · rw [hnext]
      trivial
    · rw [hnext]
      exact hfound _
    · rw [hnext]
      exact hname _ hlt
  have hsame : p.Sound := ⟨h.ok, h.fits, by simpa only [InState, hstate] using hin⟩
  unfold matchValue
  cases hheader : p.headerState with
  | general => exact ⟨_, rfl, hsame.settled⟩
  | contentLength =>
    refine ⟨_, rfl, ?_⟩
    split
    · exact hsame.settled
    · split
      · next hdigit =>
        split
        · exact settled_fail _ (by decide)
        · next hle =>
          have hlt := digit_le hdigit
          have hroom : p.contentLength * 10 + (ch - byte '0').toNat ≤ ullongMax := by
            unfold ullongMax at hle ⊢
            omega
          exact SoundAt.settled ⟨h.ok, { h.fits with contentLength_le := hroom },
            by simp [InState, hstate, HeaderState.InValue]⟩
      · exact settled_fail _ (by decide)
  | matchingTransferEncodingChunked | matchingConnectionKeepAlive | matchingConnectionClose =>
    simp only [hheader, HeaderState.InValue] at hin hmatch
    exact hmatch _ (fun _ => trivial) hin fun _ hi => hi
  | transferEncodingChunked | connectionKeepAlive | connectionClose =>
    refine ⟨_, rfl, ?_⟩
    split
    · exact SoundAt.settled ⟨h.ok, h.fits, by simp [InState, hstate, HeaderState.InValue]⟩
    · exact hsame.settled
  | c | co | con | matchingConnection | matchingProxyConnection | matchingContentLength
  | matchingTransferEncoding | matchingUpgrade | connection | transferEncoding | upgrade =>
    simp [hheader, HeaderState.InValue] at hin

end Cases

end HttpParser

/-- The marks where at most one is set. -/
def marksOf (pending : Option (ParserMark × Bytes)) (m : ParserMark) : Option Bytes :=
  pending.bind fun (m', text) => if m = m' then some text else none

/-- The mark that can be set in a state between two bytes. -/
def ParserState.Opens (state : ParserState) (pending : Option (ParserMark × Bytes)) : Prop :=
  match state with
  | .headerField => ∃ text, pending = some (.headerField, text)
  | .headerValue => ∃ text, pending = some (.headerValue, text)
  | .reqUrl .spacesBeforeUrl => pending = none
  | .reqUrl _ => ∃ text, pending = some (.url, text)
  | .bodyIdentity | .chunkData | .chunkDataAlmostDone =>
    pending = none ∨ ∃ text, pending = some (.body, text)
  | _ => pending = none

/-- What is pending after some bytes. -/
def extend (pending : Option (ParserMark × Bytes)) (bytes : Bytes) : Option (ParserMark × Bytes) :=
  pending.map fun (m, text) => (m, text ++ bytes)

/-- Bytes do not change which mark is set. -/
theorem ParserState.Opens.extend {state : ParserState} {pending : Option (ParserMark × Bytes)}
    (h : state.Opens pending) (bytes : Bytes) : state.Opens (extend pending bytes) := by
  unfold Opens at h ⊢
  split at h
  case h_1 | h_2 | h_4 =>
    obtain ⟨text, rfl⟩ := h
    exact ⟨text ++ bytes, rfl⟩
  case h_3 | h_8 =>
    subst h
    rfl
  case h_5 | h_6 | h_7 =>
    rcases h with rfl | ⟨text, rfl⟩
    · exact Or.inl rfl
    · exact Or.inr ⟨text ++ bytes, rfl⟩

/-- A state in which no mark is set. -/
theorem ParserState.Opens.eq_none {state : ParserState} {pending : Option (ParserMark × Bytes)}
    (h : state.Opens pending) (hstate : state.IsPlain) : pending = none := by
  cases state <;> first | exact h | exact absurd hstate id

namespace Execution

/-- Bytes that are passed lengthen what is pending. -/
theorem pass_marks {s : Execution} {pending : Option (ParserMark × Bytes)}
    (h : s.marks = marksOf pending) (bytes : Bytes) :
    (s.pass bytes).marks = marksOf (extend pending bytes) := by
  funext m
  simp only [pass, h, marksOf, extend]
  cases pending with
  | none => rfl
  | some pending =>
    obtain ⟨m', text⟩ := pending
    simp only [Option.bind_some, Option.map_some]
    split <;> rfl

/-- A mark that is set where none is pending. -/
theorem mark_marks {s : Execution} (h : s.marks = marksOf none) (m : ParserMark) :
    (s.mark m).marks = marksOf (some (m, [])) := by
  funext m'
  simp only [mark, h, marksOf, Function.update_apply]
  by_cases heq : m' = m <;> simp [heq]

/-- Nothing is pending behind the callback of the mark that is set. -/
theorem update_marksOf (m : ParserMark) (text : Bytes) :
    Function.update (marksOf (some (m, text))) m none = marksOf none := by
  funext m'
  simp only [marksOf, Function.update_apply]
  by_cases heq : m' = m <;> simp [heq]

end Execution

/-- An answer of a callback that stops the parser. -/
def stopsParser (cb : ParserCallback) (code : ℤ) : Prop :=
  code ≠ 0 ∧ ¬(cb = .headersComplete ∧ code = 1)

namespace AfterByte

/-- The parser has stopped with an error, with a number of bytes that is in the buffer. -/
def Halted (limit : ℕ) : AfterByte → Prop
  | .next _ _ => False
  | .stop s parsed => s.parser.httpErrno ≠ .ok ∧ parsed ≤ limit

/-- The parser is sound behind a byte at `p`, of which `left` are left with it. -/
def Good (p left : ℕ) : AfterByte → Prop
  | .next s skip => s.parser.Sound ∧ s.p = p + 1 + skip ∧ skip < left ∧
      ∃ pending, s.marks = marksOf pending ∧ s.parser.state.Opens pending
  | .stop s parsed => s.parser.Settled ∧ parsed ≤ p + left

end AfterByte

/-- A case of the `switch` that is safe, whatever the callbacks return. -/
abbrev ParserCase.Safe (p left : ℕ) (m : ParserCase) : Prop :=
  m.Meets stopsParser (AfterByte.Halted (p + left)) (AfterByte.Good p left)

namespace Execution

variable {s : Execution} {left : ℕ} {pending : Option (ParserMark × Bytes)} {ch : UInt8}

/-- `break` with a sound parser. -/
theorem safe_goOn {p : HttpParser} (hp : p.Sound) (hmarks : s.marks = marksOf pending)
    (hopens : p.state.Opens pending) (hleft : 0 < left) : (s.goOn p ch).Safe s.p left := by
  refine ⟨hp, by simp [pass], hleft, extend pending [ch], pass_marks hmarks _, hopens.extend _⟩

/-- `goto error`, or `break`. -/
theorem safe_settle {p : HttpParser} (hp : p.Settled) (hmarks : s.marks = marksOf pending)
    (hopens : p.httpErrno = .ok → p.state.Opens pending) (hleft : 0 < left) :
    (s.settle p ch).Safe s.p left := by
  unfold settle
  split
  · next hok => exact safe_goOn (hp hok) hmarks (hopens hok) hleft
  · exact ⟨hp, Nat.le_add_right _ _⟩

/-- `goto error`. -/
theorem safe_fail (p : HttpParser) {e : HttpErrno} (he : e ≠ .ok) :
    (s.settle (p.fail e) ch).Safe s.p left := by
  have hne : (p.fail e).httpErrno ≠ .ok := he
  unfold settle
  rw [if_neg hne]
  exact ⟨HttpParser.settled_fail _ he, Nat.le_add_right _ _⟩

/-- A case that neither sets a mark nor makes a callback. -/
theorem safe_plain {p : Option HttpParser} (hp : ∃ p', p = some p' ∧ p'.Settled)
    (hmarks : s.marks = marksOf pending)
    (hopens : ∀ p', p = some p' → p'.httpErrno = .ok → p'.state.Opens pending) (hleft : 0 < left) :
    (s.plain p ch).Safe s.p left := by
  obtain ⟨p', rfl, hp'⟩ := hp
  exact safe_settle hp' hmarks (hopens p' rfl) hleft

/-- The error of a callback. -/
theorem errno_ne_ok (cb : ParserCallback) : cb.errno ≠ .ok := by
  cases cb <;> simp [ParserCallback.errno]

/-- A callback that ends the parser where it does not return zero. -/
theorem safe_call {p er : ℕ} {cb : ParserCallback} {next : ParserCase} {after : Execution}
    (hafter : after.parser.httpErrno ≠ .ok) (her : er ≤ p + left) (hnext : next.Safe p left) :
    ParserCase.Safe p left (.call cb fun code => if code = 0 then next else after.leave er) := by
  intro code
  dsimp only
  by_cases hzero : code = 0
  · rw [if_pos hzero]
    exact ⟨fun hstops => absurd hzero hstops.1, fun _ => hnext⟩
  · rw [if_neg hzero]
    exact ⟨fun _ => ⟨_, rfl, hafter, her⟩, fun _ => ⟨fun h => absurd h hafter, her⟩⟩

/-- A callback without data. -/
theorem safe_callbackNotify {p er : ℕ} {cb : ParserCallback} {rest : Execution → ParserCase}
    (hok : s.parser.httpErrno = .ok) (her : er ≤ p + left) (hrest : (rest s).Safe p left) :
    (s.callbackNotify cb er rest).Safe p left := by
  unfold callbackNotify
  rw [if_pos hok]
  exact safe_call (errno_ne_ok cb) her hrest

/-- A data callback. -/
theorem safe_callbackData {p er : ℕ} {m : ParserMark} {text extra : Bytes}
    {rest : Execution → ParserCase} (hok : s.parser.httpErrno = .ok)
    (hmarks : s.marks = marksOf (some (m, text))) (her : er ≤ p + left)
    (hrest : (rest { s with marks := marksOf none }).Safe p left) :
    (s.callbackData m extra er rest).Safe p left := by
  unfold callbackData
  have hmark : s.marks m = some text := by simp [hmarks, marksOf]
  rw [if_pos hok, hmark]
  dsimp only
  refine safe_call (errno_ne_ok _) her ?_
  rwa [hmarks, update_marksOf]

/-- A data callback whose mark is not set. -/
theorem safe_callbackData_of_unset {p er : ℕ} {m : ParserMark} {extra : Bytes}
    {rest : Execution → ParserCase} (hok : s.parser.httpErrno = .ok) (hmark : s.marks m = none)
    (hrest : (rest s).Safe p left) : (s.callbackData m extra er rest).Safe p left := by
  unfold callbackData
  rw [if_pos hok, hmark]
  exact hrest

/-- A new message may begin, or none. -/
theorem newMessage_cases (p : HttpParser) : p.newMessage = .startReq ∨ p.newMessage = .dead := by
  unfold HttpParser.newMessage
  split
  · exact Or.inl rfl
  · exact Or.inr rfl

/-- A parser between two messages. -/
theorem sound_newMessage {p : HttpParser} {n : ℕ} (h : p.SoundAt n) (q : HttpParser) :
    ({ p with state := q.newMessage } : HttpParser).Sound ∧ q.newMessage.Opens none := by
  rcases newMessage_cases q with heq | heq
  · rw [heq]
    exact ⟨h.setState trivial, rfl⟩
  · rw [heq]
    exact ⟨h.setState trivial, rfl⟩

/-- `s_start_req`. -/
theorem safe_startReq (h : s.parser.SoundAt 1) (hstate : s.parser.state = .startReq)
    (hmarks : s.marks = marksOf none) (hleft : 0 < left) : (s.startReq ch).Safe s.p left := by
  have hopens : s.parser.state.Opens none := by rw [hstate]; rfl
  have hsame : s.parser.Sound := ⟨h.ok, h.fits, by simp [HttpParser.InState, hstate]⟩
  unfold startReq
  split
  · exact safe_goOn hsame hmarks hopens hleft
  · dsimp only
    split
    · exact safe_fail _ (by decide)
    · split
      · exact safe_fail _ (by decide)
      · next method hmethod =>
        refine safe_callbackNotify h.ok (by omega) ?_
        have hfits : FieldsFit s.parser.nread 1 ullongMax s.parser.httpMajor s.parser.httpMinor :=
          { h.fits with index_le := by decide, contentLength_le := le_rfl }
        have hlength : 1 ≤ (httpMethodStr method).length := by cases method <;> decide
        exact safe_goOn ⟨h.ok, hfits, hlength⟩ hmarks rfl hleft

/-- No character of a target leads back before it. -/
theorem parseUrlChar_ne (u : UrlState) (ch : UInt8) : parseUrlChar u ch ≠ .spacesBeforeUrl := by
  cases u <;> simp only [parseUrlChar, parsePartChar, parseServerChar] <;> split_ifs <;> simp

/-- The mark of a target that has begun. -/
theorem opens_reqUrl {u : UrlState} (hu : u ≠ .spacesBeforeUrl) (text : Bytes) :
    (ParserState.reqUrl u).Opens (some (.url, text)) := by
  cases u <;> first | exact absurd rfl hu | exact ⟨text, rfl⟩

/-- The characters of the target. -/
theorem safe_parseUrl (h : s.parser.SoundAt 1) {text : Bytes} {u : UrlState}
    (hmarks : s.marks = marksOf (some (.url, text))) (hleft : 0 < left) :
    (s.parseUrl u ch).Safe s.p left := by
  unfold parseUrl
  split
  · exact safe_fail _ (by decide)
  · next v hv =>
    exact safe_goOn ⟨h.ok, h.fits, hv⟩ hmarks (opens_reqUrl (parseUrlChar_ne u ch) text) hleft

/-- The cases of the target. -/
theorem safe_reqUrl (h : s.parser.SoundAt 1) {u : UrlState} (hstate : s.parser.state = .reqUrl u)
    (hmarks : s.marks = marksOf pending) (hopens : s.parser.state.Opens pending)
    (hleft : 0 < left) : (s.reqUrl u ch).Safe s.p left := by
  have hdead : u ≠ .dead := by simpa only [HttpParser.InState, hstate] using h.inState
  rw [hstate] at hopens
  have hsame : s.parser.Sound := ⟨h.ok, h.fits, by simpa only [HttpParser.InState, hstate]⟩
  have hurl {text : Bytes} (hmarks : s.marks = marksOf (some (.url, text))) :
      (if ch = byte ' ' then
        (s.setState .reqHttpStart).callbackData .url [] (s.p + 1) fun s => s.goOn s.parser ch
      else if ch = cr ∨ ch = lf then
        { s with parser := { s.parser with
            httpMajor := 0
            httpMinor := 9
            state := if ch = cr then .reqLineAlmostDone else .headerFieldStart } }.callbackData
          .url [] (s.p + 1) fun s => s.goOn s.parser ch
      else s.parseUrl u ch).Safe s.p left := by
    split
    · refine safe_callbackData h.ok hmarks (by omega) ?_
      exact safe_goOn (h.setState trivial) rfl rfl hleft
    · split
      · have hfits : FieldsFit s.parser.nread s.parser.index s.parser.contentLength 0 9 :=
          { h.fits with httpMajor_le := by decide, httpMinor_le := by decide }
        refine safe_callbackData h.ok hmarks (by omega) ?_
        by_cases hcr : ch = cr
        · simp only [if_pos hcr]
          exact safe_goOn ⟨h.ok, hfits, trivial⟩ rfl rfl hleft
        · simp only [if_neg hcr]
          exact safe_goOn ⟨h.ok, hfits, trivial⟩ rfl rfl hleft
      · exact safe_parseUrl h hmarks hleft
  cases u with
  | dead => exact absurd rfl hdead
  | spacesBeforeUrl =>
    obtain rfl : pending = none := hopens
    unfold reqUrl
    dsimp only
    split
    · exact safe_goOn hsame hmarks (by rw [hstate]; rfl) hleft
    · split
      · exact safe_parseUrl (s := (s.mark .url).setState (.reqUrl .serverStart))
          (h.setState (by simp [HttpParser.InState])) (mark_marks hmarks _) hleft
      · exact safe_parseUrl (s := s.mark .url) h (mark_marks hmarks _) hleft
  | schema | schemaSlash | schemaSlashSlash | serverStart =>
    obtain ⟨text, rfl⟩ := hopens
    unfold reqUrl
    dsimp only
    split
    · exact safe_fail _ (by decide)
    · exact safe_parseUrl h hmarks hleft
  | server | serverWithAt | path | queryStringStart | queryString | fragmentStart | fragment =>
    obtain ⟨text, rfl⟩ := hopens
    exact hurl hmarks

/-- Plain cases lead to states in which no mark is set. -/
theorem plainCase_opens {p p' : HttpParser} (h : p.plainCase ch = some p') :
    p'.state.Opens none := by
  unfold HttpParser.plainCase at h
  split at h
  case h_2 heq =>
    unfold HttpParser.reqMethod at h
    split at h
    · obtain rfl := Option.some.inj h
      simp [HttpParser.fail, heq, ParserState.Opens]
    · obtain ⟨matcher, _, rfl⟩ := Option.map_eq_some_iff.mp h
      split_ifs
      · rfl
      · simp [heq, ParserState.Opens]
      · split <;> simp [HttpParser.fail, heq, ParserState.Opens]
  case h_15 heq =>
    unfold HttpParser.chunkSizeStart at h
    split at h
    · obtain rfl := Option.some.inj h
      split <;> simp [HttpParser.fail, heq, ParserState.Opens]
    · simp at h
  case h_16 heq =>
    obtain ⟨_, hsome⟩ := Option.ite_none_right_eq_some.mp h
    obtain rfl := Option.some.inj hsome
    unfold HttpParser.chunkSize
    split
    · rfl
    · split <;> split_ifs <;> simp [HttpParser.fail, heq, ParserState.Opens]
  case h_17 heq | h_18 heq | h_19 heq =>
    obtain ⟨_, hsome⟩ := Option.ite_none_right_eq_some.mp h
    obtain rfl := Option.some.inj hsome
    try simp only [HttpParser.chunkSizeAlmostDone]
    split_ifs <;> simp [HttpParser.fail, heq, ParserState.Opens]
  case h_20 => simp at h
  all_goals
    next heq =>
    obtain rfl := Option.some.inj h
    try simp only [HttpParser.strictCheck, HttpParser.versionDigit]
    split_ifs <;> simp [HttpParser.fail, heq, ParserState.Opens]

/-- The last callback of a message. -/
theorem safe_completeMessage {n p : ℕ} (h : s.parser.SoundAt n) (hmarks : s.marks = marksOf none)
    (hp : s.p < p + left) {rest : Execution → ParserCase}
    (hrest : ∀ t : Execution, t.parser.Sound → t.p = s.p → t.marks = marksOf none →
      t.parser.state.Opens none → (rest t).Safe p left) :
    (s.completeMessage rest).Safe p left := by
  obtain ⟨hsound, hopens⟩ := sound_newMessage h s.parser
  exact safe_callbackNotify h.ok hp (hrest _ hsound rfl hmarks hopens)

/-- The last callback of a message, after which the parser goes on. -/
theorem safe_completeMessage_goOn {n : ℕ} (h : s.parser.SoundAt n) (hmarks : s.marks = marksOf none)
    (hleft : 0 < left) : (s.completeMessage fun s => s.goOn s.parser ch).Safe s.p left := by
  refine safe_completeMessage h hmarks (by omega) fun t ht hp hmarks hopens => ?_
  rw [← hp]
  exact safe_goOn ht hmarks hopens hleft

/-- `s_headers_done`. -/
theorem safe_headersDone {n : ℕ} (h : s.parser.SoundAt n) (hstate : s.parser.state = .headersDone)
    (hmarks : s.marks = marksOf none) (hleft : 0 < left) : (s.headersDone ch).Safe s.p left := by
  unfold headersDone
  split
  · have hfits : FieldsFit 0 s.parser.index s.parser.contentLength s.parser.httpMajor
        s.parser.httpMinor := { h.fits with nread_le := Nat.zero_le _ }
    have ht : ({ s.parser with nread := 0 } : HttpParser).SoundAt 1 :=
      ⟨h.ok, hfits, by simp [HttpParser.InState, hstate]⟩
    unfold afterHeaders
    split
    · exact safe_completeMessage (s := { s with parser.nread := 0 }) ht hmarks
        (Nat.lt_add_of_pos_right hleft) fun t ht hp _ _ =>
          ⟨ht.settled, hp ▸ Nat.add_le_add_left hleft _⟩
    · split
      · exact safe_completeMessage_goOn (s := { s with parser.nread := 0 }) ht hmarks hleft
      · split
        · next hchunked =>
          exact safe_goOn (s := { s with parser.nread := 0 }) ⟨h.ok, hfits, rfl, hchunked⟩
            hmarks rfl
            hleft
        · split
          · exact safe_completeMessage_goOn (s := { s with parser.nread := 0 }) ht hmarks hleft
          · next hzero =>
            split
            · next hmax =>
              have hlt : s.parser.contentLength < ullongMax :=
                Nat.lt_of_le_of_ne h.fits.contentLength_le hmax
              exact safe_goOn (s := { s with parser.nread := 0 }) ⟨h.ok, hfits, hzero, hlt⟩ hmarks
                (Or.inl rfl) hleft
            · exact safe_completeMessage_goOn (s := { s with parser.nread := 0 }) ht hmarks hleft
  · exact safe_fail _ (by decide)

/-- `s_headers_almost_done`. -/
theorem safe_headersAlmostDone {n : ℕ} (h : s.parser.SoundAt n) (hmarks : s.marks = marksOf none)
    (hleft : 0 < left) : (s.headersAlmostDone ch).Safe s.p left := by
  unfold headersAlmostDone
  split
  · split
    · exact safe_completeMessage_goOn h hmarks hleft
    · intro code
      dsimp only
      by_cases hzero : code = 0
      · rw [if_pos hzero]
        exact ⟨fun hstops => absurd hzero hstops.1, fun _ =>
          safe_headersDone (s := { s with
            parser.state := .headersDone
            parser.upgrade := s.parser.flags.upgrade || s.parser.method = HttpMethod.connect })
            (n := 1) ⟨h.ok, h.fits, trivial⟩ rfl hmarks hleft⟩
      · rw [if_neg hzero]
        by_cases hone : code = 1
        · rw [if_pos hone]
          exact ⟨fun hstops => absurd ⟨rfl, hone⟩ hstops.2, fun _ =>
            safe_headersDone (s := { s with
              parser.state := .headersDone
              parser.upgrade := s.parser.flags.upgrade || s.parser.method = HttpMethod.connect
              parser.flags.skipbody := true })
              (n := 1) ⟨h.ok, h.fits, trivial⟩ rfl hmarks hleft⟩
        · rw [if_neg hone]
          have herrno : HttpErrno.cbHeadersComplete ≠ .ok := by decide
          exact ⟨fun _ => ⟨_, rfl, herrno, Nat.le_add_right _ _⟩,
            fun _ => ⟨HttpParser.settled_fail _ herrno, Nat.le_add_right _ _⟩⟩
  · exact safe_fail _ (by decide)

/-- `s_header_field_start`. -/
theorem safe_headerFieldStart {n : ℕ} (h : s.parser.SoundAt n) (hmarks : s.marks = marksOf none)
    (hleft : 0 < left) : (s.headerFieldStart ch).Safe s.p left := by
  unfold headerFieldStart
  split
  · exact safe_goOn (h.setState trivial) hmarks rfl hleft
  · split
    · exact safe_headersAlmostDone (s := s.setState .headersAlmostDone) (n := 1)
        (h.setState trivial) hmarks hleft
    · dsimp only
      split
      · exact safe_fail _ (by decide)
      · exact safe_goOn (s := s.mark .headerField) (HttpParser.sound_startName h _)
          (mark_marks hmarks _) ⟨[], rfl⟩ hleft

/-- `s_header_field`. -/
theorem safe_headerField (h : s.parser.SoundAt 1) (hstate : s.parser.state = .headerField)
    (hmarks : s.marks = marksOf pending) (hopens : s.parser.state.Opens pending)
    (hleft : 0 < left) : (s.headerField ch).Safe s.p left := by
  have hpending := hopens
  rw [hstate] at hpending
  obtain ⟨text, rfl⟩ := hpending
  unfold headerField
  dsimp only
  split
  · refine safe_plain (HttpParser.matchName_settled h hstate _) hmarks (fun p' hp' _ => ?_) hleft
    rw [HttpParser.matchName_state hp']
    exact hopens
  · split
    · refine safe_callbackData h.ok hmarks (by omega) ?_
      exact safe_goOn (h.setState trivial) rfl rfl hleft
    · split
      · refine safe_callbackData h.ok hmarks (by omega) ?_
        exact safe_goOn (h.setState trivial) rfl rfl hleft
      · split
        · refine safe_callbackData h.ok hmarks (by omega) ?_
          exact safe_goOn (h.setState trivial) rfl rfl hleft
        · exact safe_fail _ (by decide)

/-- `s_header_value_start`. -/
theorem safe_headerValueStart {n : ℕ} (h : s.parser.SoundAt n) (hmarks : s.marks = marksOf none)
    (hleft : 0 < left) : (s.headerValueStart ch).Safe s.p left := by
  refine safe_settle (s := s.mark .headerValue) (HttpParser.startValue_settled h ch)
    (mark_marks hmarks _) (fun _ => ?_) hleft
  rw [HttpParser.startValue_state]
  exact ⟨[], rfl⟩

/-- `s_header_value_discard_ws`. -/
theorem safe_headerValueDiscardWs (h : s.parser.SoundAt 1)
    (hstate : s.parser.state = .headerValueDiscardWs) (hmarks : s.marks = marksOf none)
    (hleft : 0 < left) : (s.headerValueDiscardWs ch).Safe s.p left := by
  unfold headerValueDiscardWs
  split
  · exact safe_goOn ⟨h.ok, h.fits, by simp [HttpParser.InState, hstate]⟩ hmarks
      (by rw [hstate]; rfl) hleft
  · split
    · exact safe_goOn (h.setState trivial) hmarks rfl hleft
    · split
      · exact safe_goOn (h.setState trivial) hmarks rfl hleft
      · exact safe_headerValueStart h hmarks hleft

/-- `s_header_value`. -/
theorem safe_headerValue (h : s.parser.SoundAt 1) (hstate : s.parser.state = .headerValue)
    (hmarks : s.marks = marksOf pending) (hopens : s.parser.state.Opens pending)
    (hleft : 0 < left) : (s.headerValue ch).Safe s.p left := by
  have hpending := hopens
  rw [hstate] at hpending
  obtain ⟨text, rfl⟩ := hpending
  unfold headerValue
  split
  · refine safe_callbackData h.ok hmarks (by omega) ?_
    exact safe_goOn (h.setState trivial) rfl rfl hleft
  · split
    · refine safe_callbackData h.ok hmarks (by omega) ?_
      exact safe_plain (s := ⟨{ s.parser with state := .headerAlmostDone }, s.p, marksOf none⟩)
        (HttpParser.plainCase_settled (h.setState trivial) trivial)
        (show marksOf none = marksOf none from rfl)
        (fun p' hp' _ => plainCase_opens hp') hleft
    · refine safe_plain (HttpParser.matchValue_settled h hstate) hmarks (fun p' hp' _ => ?_) hleft
      rw [HttpParser.matchValue_state hstate hp', ← hstate]
      exact hopens

/-- `s_header_value_lws`. -/
theorem safe_headerValueLws (h : s.parser.SoundAt 1) (hmarks : s.marks = marksOf none)
    (hleft : 0 < left) : (s.headerValueLws ch).Safe s.p left := by
  unfold headerValueLws
  split
  · exact safe_headerValueStart (s := s.setState .headerValueStart) (n := 1) (h.setState trivial)
      hmarks hleft
  · refine safe_headerFieldStart (s := { s with parser := s.parser.endHeader }.setState
      .headerFieldStart) (n := 1) ?_ hmarks hleft
    unfold HttpParser.endHeader
    split <;> exact ⟨h.ok, h.fits, trivial⟩

/-- `s_header_value_discard_lws`. -/
theorem safe_headerValueDiscardLws (h : s.parser.SoundAt 1) (hmarks : s.marks = marksOf none)
    (hleft : 0 < left) : (s.headerValueDiscardLws ch).Safe s.p left := by
  unfold headerValueDiscardLws
  split
  · exact safe_goOn (h.setState trivial) hmarks rfl hleft
  · refine safe_callbackData (s := (s.mark .headerValue).setState .headerFieldStart) h.ok
      (mark_marks hmarks _) (Nat.le_add_right _ _) ?_
    exact safe_headerFieldStart (s := ⟨{ s.parser with state := .headerFieldStart }, s.p,
      marksOf none⟩) (n := 1) (h.setState trivial) rfl hleft

/-- `s_message_done`. -/
theorem safe_messageDone {n p skip : ℕ} (h : s.parser.SoundAt n) (hmarks : s.marks = marksOf none)
    (hp : s.p = p + skip) (hskip : skip < left) : (s.messageDone ch skip).Safe p left := by
  refine safe_completeMessage h hmarks (by omega) fun t ht htp hmarks hopens => ?_
  refine ⟨ht, ?_, hskip, none, pass_marks hmarks _, hopens⟩
  simp only [pass, List.length_singleton]
  omega

/-- The bytes of a body that are taken are some of those that are left. -/
theorem length_bodyBytes {rest : Bytes} (hcontent : s.parser.contentLength ≠ 0) :
    0 < (s.bodyBytes (ch :: rest)).length ∧
      (s.bodyBytes (ch :: rest)).length ≤ (ch :: rest).length ∧
      (s.bodyBytes (ch :: rest)).length ≤ s.parser.contentLength := by
  simp only [bodyBytes, List.length_take, List.length_cons]
  omega

/-- The text that is pending, or none. -/
def pendingText (pending : Option (ParserMark × Bytes)) : Bytes := (pending.map Prod.snd).getD []

/-- The mark of a body, whether it is set already or not. -/
theorem takeBody_marks (hmarks : s.marks = marksOf pending)
    (hpending : pending = none ∨ ∃ text, pending = some (.body, text)) (text : Bytes) :
    (s.takeBody text).marks = marksOf (some (.body, pendingText pending)) := by
  rcases hpending with rfl | ⟨text', rfl⟩
  · exact mark_marks hmarks _
  · funext m
    simp only [takeBody, mark, hmarks, marksOf, Function.update_apply]
    by_cases heq : m = .body <;> simp [heq, pendingText]

/-- `s_body_identity`. -/
theorem safe_bodyIdentity (h : s.parser.SoundAt 1) (hstate : s.parser.state = .bodyIdentity)
    (hmarks : s.marks = marksOf pending) (hopens : s.parser.state.Opens pending) {rest : Bytes} :
    (s.bodyIdentity ch rest).Safe s.p (ch :: rest).length := by
  have hin : s.parser.contentLength ≠ 0 ∧ s.parser.contentLength < ullongMax := by
    simpa only [HttpParser.InState, hstate] using h.inState
  rw [hstate] at hopens
  obtain ⟨hpos, hrest, hle⟩ := @length_bodyBytes s ch rest hin.1
  unfold bodyIdentity
  rw [if_pos ⟨hin.1, hin.2.ne⟩]
  dsimp only
  generalize s.bodyBytes (ch :: rest) = text at hpos hrest hle ⊢
  have hfits : FieldsFit s.parser.nread s.parser.index (s.parser.contentLength - text.length)
      s.parser.httpMajor s.parser.httpMinor :=
    { h.fits with contentLength_le := (Nat.sub_le _ _).trans h.fits.contentLength_le }
  have hmark := takeBody_marks hmarks hopens text
  generalize pendingText pending = text' at hmark
  split
  · -- the whole body is there
    unfold endBody
    have hlast : text.dropLast.length = text.length - 1 := List.length_dropLast
    have hp : s.p + text.dropLast.length ≤ s.p + (ch :: rest).length := by omega
    have hend : (s.p + text.dropLast.length) = s.p + (text.length - 1) := by omega
    have hpending := pass_marks (s := (s.takeBody text).setState .messageDone) hmark text.dropLast
    refine safe_callbackData h.ok hpending hp ?_
    refine safe_messageDone (n := 1) ?_ rfl hend (by omega)
    exact ⟨h.ok, hfits, trivial⟩
  · next hzero =>
    have hlt : s.parser.contentLength - text.length < ullongMax :=
      (Nat.sub_le _ _).trans_lt hin.2
    have hp : s.p + text.length = s.p + 1 + (text.length - 1) := by omega
    have hskip : text.length - 1 < (ch :: rest).length := by omega
    refine ⟨⟨h.ok, hfits, ?_⟩, hp, hskip, some (.body, text' ++ text), ?_, ?_⟩
    · simpa only [HttpParser.InState, hstate, pass, takeBody, mark] using ⟨hzero, hlt⟩
    · exact pass_marks hmark _
    · change s.parser.state.Opens _
      rw [hstate]
      exact Or.inr ⟨_, rfl⟩

/-- `s_chunk_data`. -/
theorem safe_chunkData (h : s.parser.SoundAt 1) (hstate : s.parser.state = .chunkData)
    (hmarks : s.marks = marksOf pending) (hopens : s.parser.state.Opens pending) {rest : Bytes} :
    (s.chunkData ch rest).Safe s.p (ch :: rest).length := by
  have hin : s.parser.flags.chunked = true ∧ s.parser.contentLength ≠ 0 ∧
      s.parser.contentLength < ullongMax := by
    simpa only [HttpParser.InState, hstate] using h.inState
  rw [hstate] at hopens
  obtain ⟨hpos, hrest, hle⟩ := @length_bodyBytes s ch rest hin.2.1
  unfold chunkData
  rw [if_pos ⟨hin.1, hin.2.1, hin.2.2.ne⟩]
  dsimp only
  generalize s.bodyBytes (ch :: rest) = text at hpos hrest hle ⊢
  have hfits : FieldsFit s.parser.nread s.parser.index (s.parser.contentLength - text.length)
      s.parser.httpMajor s.parser.httpMinor :=
    { h.fits with contentLength_le := (Nat.sub_le _ _).trans h.fits.contentLength_le }
  have hlt : s.parser.contentLength - text.length < ullongMax :=
    (Nat.sub_le _ _).trans_lt hin.2.2
  have hp : s.p + text.length = s.p + 1 + (text.length - 1) := by omega
  have hskip : text.length - 1 < (ch :: rest).length := by omega
  have hmark := takeBody_marks hmarks hopens text
  generalize pendingText pending = text' at hmark
  split
  · next hzero =>
    refine ⟨⟨h.ok, hfits, hin.1, hzero⟩, hp, hskip, some (.body, text' ++ text), ?_, ?_⟩
    · exact pass_marks (s := (s.takeBody text).setState .chunkDataAlmostDone) hmark _
    · exact Or.inr ⟨_, rfl⟩
  · next hzero =>
    refine ⟨⟨h.ok, hfits, ?_⟩, hp, hskip, some (.body, text' ++ text), ?_, ?_⟩
    · simpa only [HttpParser.InState, hstate, pass, takeBody, mark] using ⟨hin.1, hzero, hlt⟩
    · exact pass_marks hmark _
    · change s.parser.state.Opens _
      rw [hstate]
      exact Or.inr ⟨_, rfl⟩

/-- `s_chunk_data_almost_done`. -/
theorem safe_chunkDataAlmostDone (h : s.parser.SoundAt 1)
    (hstate : s.parser.state = .chunkDataAlmostDone) (hmarks : s.marks = marksOf pending)
    (hopens : s.parser.state.Opens pending) (hleft : 0 < left) :
    (s.chunkDataAlmostDone ch).Safe s.p left := by
  have hin : s.parser.flags.chunked = true ∧ s.parser.contentLength = 0 := by
    simpa only [HttpParser.InState, hstate] using h.inState
  rw [hstate] at hopens
  have hnext : HttpParser.Sound { s.parser with state := .chunkDataDone } := h.setState hin.1
  unfold chunkDataAlmostDone
  rw [if_pos hin]
  split
  · rcases hopens with rfl | ⟨text, rfl⟩
    · refine safe_callbackData_of_unset (s := s.setState .chunkDataDone) h.ok ?_ ?_
      · simp [setState, hmarks, marksOf]
      · exact safe_goOn (s := s.setState .chunkDataDone) hnext hmarks rfl hleft
    · refine safe_callbackData (s := s.setState .chunkDataDone) h.ok hmarks (by omega) ?_
      exact safe_goOn hnext rfl rfl hleft
  · exact safe_fail _ (by decide)

/-- **The `switch`.** Every case is safe from a sound parser. -/
theorem safe_switchState (h : s.parser.SoundAt 1) (hmarks : s.marks = marksOf pending)
    (hopens : s.parser.state.Opens pending) {rest : Bytes} :
    (s.switchState ch rest).Safe s.p (ch :: rest).length := by
  have hleft : 0 < (ch :: rest).length := Nat.succ_pos _
  have hnone (heq : s.parser.state.Opens pending → pending = none) : s.marks = marksOf none :=
    heq hopens ▸ hmarks
  unfold switchState
  cases hstate : s.parser.state with
  | startReq => exact safe_startReq h hstate (hnone (by rw [hstate]; exact id)) hleft
  | reqUrl u => exact safe_reqUrl h hstate hmarks hopens hleft
  | headerFieldStart => exact safe_headerFieldStart h (hnone (by rw [hstate]; exact id)) hleft
  | headerField => exact safe_headerField h hstate hmarks hopens hleft
  | headerValueDiscardWs =>
    exact safe_headerValueDiscardWs h hstate (hnone (by rw [hstate]; exact id)) hleft
  | headerValueDiscardLws =>
    exact safe_headerValueDiscardLws h (hnone (by rw [hstate]; exact id)) hleft
  | headerValueStart => exact safe_headerValueStart h (hnone (by rw [hstate]; exact id)) hleft
  | headerValue => exact safe_headerValue h hstate hmarks hopens hleft
  | headerValueLws => exact safe_headerValueLws h (hnone (by rw [hstate]; exact id)) hleft
  | headersAlmostDone => exact safe_headersAlmostDone h (hnone (by rw [hstate]; exact id)) hleft
  | headersDone => exact safe_headersDone h hstate (hnone (by rw [hstate]; exact id)) hleft
  | bodyIdentity => exact safe_bodyIdentity h hstate hmarks hopens
  | chunkData => exact safe_chunkData h hstate hmarks hopens
  | chunkDataAlmostDone => exact safe_chunkDataAlmostDone h hstate hmarks hopens hleft
  | messageDone =>
    exact safe_messageDone h (hnone (by rw [hstate]; exact id)) rfl hleft
  | dead | reqMethod | reqHttpStart | reqHttpH | reqHttpHT | reqHttpHTT | reqHttpHTTP
  | reqFirstHttpMajor | reqHttpMajor | reqFirstHttpMinor | reqHttpMinor | reqLineAlmostDone
  | headerValueDiscardWsAlmostDone | headerAlmostDone | chunkSizeStart | chunkSize
  | chunkParameters | chunkSizeAlmostDone | chunkDataDone =>
    have hplain : s.parser.state.IsPlain := by rw [hstate]; trivial
    obtain rfl := hopens.eq_none hplain
    exact safe_plain (HttpParser.plainCase_settled h hplain) hmarks
      (fun p' hp' _ => plainCase_opens hp') hleft

/-- Only the start of a chunk size looks at `nread`. -/
theorem inState_of_ne {p : HttpParser} {n m k : ℕ} (h : p.InState n)
    (hstate : p.state ≠ .chunkSizeStart) : HttpParser.InState m { p with nread := k } := by
  obtain ⟨_, state⟩ := p
  cases state <;> first | exact h | exact absurd rfl hstate

/-- A parser behind the check of `nread`. -/
theorem sound_nread {p : HttpParser} (h : p.Sound) (hle : p.nread + 1 ≤ httpMaxHeaderSize) :
    ({ p with nread := p.nread + 1 } : HttpParser).SoundAt 1 := by
  have hfits : FieldsFit (p.nread + 1) p.index p.contentLength p.httpMajor p.httpMinor :=
    { h.fits with nread_le := hle }
  refine ⟨h.ok, hfits, ?_⟩
  by_cases hstate : p.state = .chunkSizeStart
  · have hin : p.nread = 0 ∧ p.flags.chunked = true := by
      simpa only [HttpParser.InState, hstate] using h.inState
    simp only [HttpParser.InState, hstate]
    exact ⟨by omega, hin.2⟩
  · exact inState_of_ne h.inState hstate

/-- A state that is not of the header needs no check of `nread`. -/
theorem soundAt_of_not_parsingHeader {p : HttpParser} (h : p.Sound)
    (hstate : p.state.parsingHeader = false) : p.SoundAt 1 := by
  refine ⟨h.ok, h.fits, inState_of_ne (k := p.nread) h.inState fun heq => ?_⟩
  simp [heq, ParserState.parsingHeader] at hstate

/-- **One byte.** Whatever the callbacks return, the loop goes on with a sound parser or ends. -/
theorem safe_parseByte (h : s.parser.Sound) (hmarks : s.marks = marksOf pending)
    (hopens : s.parser.state.Opens pending) {rest : Bytes} :
    (s.parseByte ch rest).Safe s.p (ch :: rest).length := by
  unfold parseByte
  split
  · dsimp only
    split
    · exact safe_fail _ (by decide)
    · next hle =>
      have hread : s.parser.nread + 1 ≤ httpMaxHeaderSize := Nat.le_of_not_lt hle
      exact safe_switchState (s := { s with parser.nread := s.parser.nread + 1 })
        (sound_nread h hread) hmarks hopens
  · next hstate =>
    exact safe_switchState (soundAt_of_not_parsingHeader h (Bool.eq_false_of_not_eq_true hstate))
      hmarks hopens

/-- The callback of one of the marks behind the last byte. -/
theorem safe_flushMark {m : ParserMark} {p : ℕ} {rest : Execution → ParserCase}
    (hok : s.parser.httpErrno = .ok) (hmarks : s.marks = marksOf pending) (hp : s.p ≤ p + left)
    (hrest : ∀ pending', (rest { s with marks := marksOf pending' }).Safe p left) :
    (s.callbackData m [] s.p rest).Safe p left := by
  cases hmark : s.marks m with
  | none =>
    refine safe_callbackData_of_unset hok hmark ?_
    have hsame := hrest pending
    rwa [← hmarks] at hsame
  | some text =>
    have hset : s.marks = marksOf (some (m, text)) := by
      rw [hmarks] at hmark ⊢
      obtain ⟨⟨m', text'⟩, rfl, hpending⟩ := Option.bind_eq_some_iff.mp hmark
      obtain ⟨rfl, hsome⟩ := Option.ite_none_right_eq_some.mp hpending
      rw [Option.some.inj hsome]
    exact safe_callbackData hok hset hp (hrest none)

/-- At most one mark is set. -/
theorem countP_marksOf (pending : Option (ParserMark × Bytes)) :
    [ParserMark.headerField, .headerValue, .url, .body].countP
      (fun m => (marksOf pending m).isSome) ≤ 1 := by
  cases pending with
  | none => simp [marksOf]
  | some pending =>
    obtain ⟨m, text⟩ := pending
    cases m <;> simp [marksOf]

/-- The callbacks behind the last byte. -/
theorem safe_flushMarks (h : s.parser.Sound) (hmarks : s.marks = marksOf pending) :
    s.flushMarks.Safe s.p 0 := by
  have hcount : [ParserMark.headerField, .headerValue, .url, .body].countP
      (fun m => (s.marks m).isSome) ≤ 1 := by
    rw [hmarks]
    exact countP_marksOf pending
  unfold flushMarks
  dsimp only
  rw [if_pos hcount]
  refine safe_flushMark h.ok hmarks le_rfl fun pending => ?_
  refine safe_flushMark h.ok rfl le_rfl fun pending => ?_
  refine safe_flushMark h.ok rfl le_rfl fun pending => ?_
  exact safe_flushMark h.ok rfl le_rfl fun pending => ⟨h.settled, le_rfl⟩

/-- **Every run.** The loop meets what one byte meets, as long as there are bytes. -/
theorem safe_loop {skip : ℕ} {data : Bytes} (h : s.parser.Sound)
    (hmarks : s.marks = marksOf pending)
    (hopens : s.parser.state.Opens pending) (hskip : skip ≤ data.length) :
    (loop skip data s).Safe (s.p + (data.length - skip)) 0 := by
  induction skip, data, s using loop.induct generalizing pending with
  | case1 skip s =>
    rw [loop]
    simpa using safe_flushMarks h hmarks
  | case2 skip ch rest s ih =>
    rw [loop]
    have hrest := ih h hmarks hopens (by simpa using hskip)
    simpa using hrest
  | case3 ch rest s ih =>
    rw [loop]
    refine (safe_parseByte h hmarks hopens).bind (fun after hafter => ?_)
      fun after hafter => ?_
    · cases after with
      | next => exact absurd hafter id
      | stop t parsed => exact ⟨_, rfl, hafter⟩
    · cases after with
      | next t skip =>
        obtain ⟨ht, hp, hlt, pending', hmarks', hopens'⟩ := hafter
        have hle : skip ≤ rest.length := by
          rw [List.length_cons] at hlt
          omega
        have hend : t.p + (rest.length - skip) = s.p + ((ch :: rest).length - 0) := by
          rw [List.length_cons] at hlt ⊢
          omega
        rw [← hend]
        exact ih t skip ht hmarks' hopens' hle
      | stop t parsed => exact hafter

/-- The mark at the start of a buffer: a text that the last one has left open goes on. -/
def openPending (p : HttpParser) : Option (ParserMark × Bytes) :=
  match p.state with
  | .headerField => some (.headerField, [])
  | .headerValue => some (.headerValue, [])
  | .reqUrl .spacesBeforeUrl | .reqUrl .dead => none
  | .reqUrl _ => some (.url, [])
  | _ => none

/-- At most one mark is set at the start of a buffer. -/
theorem openMarks_eq (p : HttpParser) : openMarks p = marksOf (openPending p) := by
  funext m
  unfold openMarks openPending
  cases hstate : p.state with
  | reqUrl u => cases u <;> cases m <;> rfl
  | _ => cases m <;> simp [marksOf]

/-- It is the mark of what the state leaves open. -/
theorem opens_openPending {p : HttpParser} (h : p.Sound) : p.state.Opens (openPending p) := by
  have hin := h.inState
  unfold HttpParser.InState at hin
  unfold openPending
  cases hstate : p.state with
  | headerField | headerValue => exact ⟨[], rfl⟩
  | reqUrl u =>
    simp only [hstate] at hin
    cases u with
    | spacesBeforeUrl => rfl
    | dead => exact absurd rfl hin
    | _ => exact ⟨[], rfl⟩
  | bodyIdentity | chunkData | chunkDataAlmostDone => exact Or.inl rfl
  | _ => rfl

end Execution

/-- **One call.** Whatever the callbacks return, `http_parser_execute` returns, and no more than
the length of the buffer where it is not empty. -/
theorem httpParserExecute_meets {p : HttpParser} (h : p.Settled) (data : Bytes) :
    (httpParserExecute p data).Meets stopsParser
      (fun r => r.1.httpErrno ≠ .ok ∧ r.2 ≤ max 1 data.length)
      (fun r => r.1.Settled ∧ r.2 ≤ max 1 data.length) := by
  unfold httpParserExecute
  split
  · exact ⟨h, Nat.zero_le _⟩
  · next hok =>
    have hsound := h (not_not.mp hok)
    split
    · split
      · exact ⟨h, Nat.zero_le _⟩
      · exact ⟨h, Nat.zero_le _⟩
      · exact ⟨HttpParser.settled_fail p (by decide), le_max_left _ _⟩
    · have hloop := Execution.safe_loop (s := ⟨p, 0, Execution.openMarks p⟩) hsound
        (Execution.openMarks_eq p) (Execution.opens_openPending hsound) (Nat.zero_le data.length)
      refine hloop.bind (fun after hafter => ?_) fun after hafter => ?_
      · cases after with
        | next => exact absurd hafter id
        | stop s parsed =>
          have hle : parsed ≤ max 1 data.length := by
            have := hafter.2
            simp only at this
            omega
          exact ⟨_, rfl, hafter.1, hle⟩
      · cases after with
        | next s skip =>
          obtain ⟨_, _, hlt, _⟩ := hafter
          omega
        | stop s parsed =>
          have hle : parsed ≤ max 1 data.length := by
            have := hafter.2
            simp only at this
            omega
          exact ⟨hafter.1, hle⟩

/-- `http_parser_execute` for one buffer after another, with the numbers that it returns. -/
def HttpParser.executeAll (p : HttpParser) :
    List Bytes → Calls ParserCallback ℤ (HttpParser × List ℕ)
  | [] => .done (p, [])
  | data :: buffers => (httpParserExecute p data).bind fun (p, parsed) =>
      (p.executeAll buffers).bind fun (p, rest) => .done (p, parsed :: rest)

/-- **No assertion fails.** Whatever the buffers hold and whatever the callbacks do and return,
every call of `http_parser_execute` returns, with a number within its buffer, and leaves an error
or a parser whose fields fit and are as its state requires. -/
theorem executeAll_sound {σ : Type*} (callbacks : σ → ParserCallback → σ × ℤ) (s : σ)
    (buffers : List Bytes) :
    ∃ t p parsed, (HttpParser.init.executeAll buffers).run (fun s cb => some (callbacks s cb)) s =
        some (t, p, parsed) ∧
      (p.httpErrno = .ok → p.Sound) ∧
      List.Forall₂ (fun n data => n ≤ max 1 data.length) parsed buffers := by
  have hsettled (p : HttpParser) (h : p.Settled) :
      ∃ t p' parsed, (p.executeAll buffers).run (fun s cb => some (callbacks s cb)) s =
          some (t, p', parsed) ∧ p'.Settled ∧
        List.Forall₂ (fun n data => n ≤ max 1 data.length) parsed buffers := by
    induction buffers generalizing s p with
    | nil => exact ⟨s, p, [], rfl, h, .nil⟩
    | cons data buffers ih =>
      obtain ⟨t, ⟨p', n⟩, hrun, hresult⟩ := (httpParserExecute_meets h data).exists_run callbacks s
      have hp' : p'.Settled := hresult.elim (fun hhalted hok => absurd hok hhalted.1) (·.1)
      have hn : n ≤ max 1 data.length := hresult.elim (·.2) (·.2)
      obtain ⟨u, p'', parsed, hrest, hp'', hparsed⟩ := ih t p' hp'
      refine ⟨u, p'', n :: parsed, ?_, hp'', .cons hn hparsed⟩
      rw [HttpParser.executeAll, Calls.run_bind, hrun, Option.bind_some]
      dsimp only
      rw [Calls.run_bind, hrest, Option.bind_some]
      rfl
  exact hsettled _ HttpParser.sound_init.settled

end Khttp
