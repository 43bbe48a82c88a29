import Khttp.HeaderScan
import Khttp.ParserTexts

/-!
# What a header line says

A header line is read from any state in front of one. What it says of the body is given without
the parser's states: by its name and its value.
-/

namespace Khttp

open Lib

/-- The number that the digits of a value are. -/
def numberOf (value : Bytes) : ℕ := decimalValue (value.filter isNum)

/-- The number of a `Content-Length`; spaces may stand between the digits. -/
def contentLengthOf (value : Bytes) : Option ℕ :=
  if (value.all fun c => isNum c || c == byte ' ') ∧ numberOf value ≤ ullongMax - 6 then
    some (numberOf value)
  else none

/-- What header lines say of the body. -/
structure Framing where
  /-- `flags`. -/
  flags : ParserFlags
  /-- `content_length`. -/
  contentLength : ℕ
  deriving DecidableEq, Repr

/-- The framing of a request without header lines. -/
def Framing.none : Framing := ⟨.none, ullongMax⟩

/-- One more header line, unless its number is invalid. -/
def Framing.line (f : Framing) (name value : Bytes) : Option Framing :=
  if value = [] then some f
  else match HeaderState.ofName name with
    | .upgrade => some { f with flags.upgrade := true }
    | .contentLength => (contentLengthOf value).map fun n => { f with contentLength := n }
    | kind => some (match HeaderState.ofValue kind value with
      | .connectionKeepAlive => { f with flags.connectionKeepAlive := true }
      | .connectionClose => { f with flags.connectionClose := true }
      | .transferEncodingChunked => { f with flags.chunked := true }
      | _ => f)

/-- A digit behind others. -/
theorem numberOf_digit (value : Bytes) {c : UInt8} (hc : isNum c = true) :
    numberOf (value ++ [c]) = numberOf value * 10 + (c - byte '0').toNat := by
  simp only [numberOf, decimalValue, List.filter_append, List.filter_singleton, hc, cond_true,
    List.foldl_append, List.foldl_cons, List.foldl_nil]
  omega

/-- A space behind digits. -/
theorem numberOf_space (value : Bytes) : numberOf (value ++ [byte ' ']) = numberOf value := by
  have hspace : isNum (byte ' ') = false := by decide
  simp only [numberOf, List.filter_append, List.filter_singleton, hspace, cond_false,
    List.append_nil]

/-- A value of digits and spaces. -/
theorem all_digits_iff (value : Bytes) :
    (value.all fun c => isNum c || c == byte ' ') = true ↔
      ∀ c ∈ value, isNum c = true ∨ c = byte ' ' := by
  simp

/-- Another digit or space behind them. -/
theorem all_digits_append {value : Bytes} {c : UInt8}
    (hall : (value.all fun d => isNum d || d == byte ' ') = true)
    (hc : isNum c = true ∨ c = byte ' ') :
    ((value ++ [c]).all fun d => isNum d || d == byte ' ') = true := by
  rw [all_digits_iff] at hall ⊢
  intro d hd
  rcases List.mem_append.mp hd with hd | hd
  · exact hall d hd
  · rwa [List.mem_singleton.mp hd]

/-- The number of digits with another one. -/
theorem contentLengthOf_digit {value : Bytes} {n : ℕ} {c : UInt8}
    (h : contentLengthOf value = some n) (hc : isNum c = true) :
    contentLengthOf (value ++ [c]) =
      if (ullongMax - 10) / 10 < n then none else some (n * 10 + (c - byte '0').toNat) := by
  obtain ⟨⟨hall, _⟩, rfl⟩ := Option.ite_some_none_eq_some.mp h
  have hdigit := HttpParser.digit_le hc
  have hall' := all_digits_append hall (.inl hc)
  rw [contentLengthOf, numberOf_digit value hc]
  unfold ullongMax
  split_ifs with hnumber hcheck hcheck
  · omega
  · rfl
  · rfl
  · exact absurd ⟨hall', by omega⟩ hnumber

/-- The number of digits with a space. -/
theorem contentLengthOf_space {value : Bytes} {n : ℕ} (h : contentLengthOf value = some n) :
    contentLengthOf (value ++ [byte ' ']) = some n := by
  obtain ⟨⟨hall, hle⟩, rfl⟩ := Option.ite_some_none_eq_some.mp h
  have hall' := all_digits_append hall (.inr rfl)
  rw [contentLengthOf, numberOf_space, if_pos ⟨hall', hle⟩]

/-- There is no number with another character. -/
theorem contentLengthOf_other (value : Bytes) {c : UInt8} (hc : isNum c = false)
    (hspace : c ≠ byte ' ') : contentLengthOf (value ++ [c]) = none := by
  refine if_neg fun h => ?_
  have hlast := (all_digits_iff _).mp h.1 c (by simp)
  simp [hc, hspace] at hlast

/-- What is no number is none with more characters. -/
theorem contentLengthOf_append {value : Bytes} (h : contentLengthOf value = none) (rest : Bytes) :
    contentLengthOf (value ++ rest) = none := by
  induction rest using List.reverseRecOn with
  | nil => rwa [List.append_nil]
  | append_singleton rest c ih =>
    rw [← List.append_assoc]
    refine if_neg fun hnumber => ?_
    have hall := (all_digits_iff _).mp hnumber.1
    have hdigits := (all_digits_iff _).mpr fun d hd => hall d (List.mem_append_left _ hd)
    have hle : numberOf (value ++ rest) ≤ ullongMax - 6 := by
      have hmore := hnumber.2
      rcases hall c (by simp) with hc | hc
      · rw [numberOf_digit _ hc] at hmore
        omega
      · rwa [hc, numberOf_space] at hmore
    rw [contentLengthOf, if_pos ⟨hdigits, hle⟩] at ih
    cases ih

namespace HttpParser

/-- What a parser that reads a value of a header says of the characters read so far, `f` being
what the lines in front of it say. -/
def ValueScan (p : HttpParser) (kind : HeaderState) (f : Framing) (value : Bytes) : Prop :=
  if kind = .contentLength then
    p.headerState = .contentLength ∧ p.flags = f.flags ∧
      contentLengthOf value = some p.contentLength
  else Scan lower HeaderState.isSpace kind.values value p.headerState p.index ∧
    p.flags = { f.flags with upgrade := f.flags.upgrade || kind = HeaderState.upgrade } ∧
    p.contentLength = f.contentLength

variable {p : HttpParser} {kind : HeaderState} {f : Framing} {value : Bytes} {ch : UInt8}

/-- The first character of a value. -/
theorem valueScan_startValue (hkind : p.headerState.settled = kind) (hflags : p.flags = f.flags)
    (hlength : p.contentLength = f.contentLength)
    (hblank : isBlankChar ch = false)
    (hvalid : kind = .contentLength → contentLengthOf [ch] ≠ none) :
    ∃ h n upgrade, p.startValue ch = { p with
        state := .headerValue
        index := 0
        headerState := h
        contentLength := n
        flags.upgrade := upgrade } ∧
      (p.startValue ch).ValueScan kind f [ch] := by
  by_cases hnumber : kind = .contentLength
  · have hstate : p.headerState = .contentLength := by
      rw [hnumber] at hkind
      cases h : p.headerState <;> rw [h] at hkind <;> simp [HeaderState.settled] at hkind
    have hdigit : isNum ch = true := by
      by_contra hdigit
      have hspace : ch ≠ byte ' ' := by
        rintro rfl
        simp [isBlankChar] at hblank
      exact hvalid hnumber (contentLengthOf_other [] (by simpa using hdigit) hspace)
    have hstart : p.startValue ch = { p with
        state := .headerValue
        index := 0
        headerState := .contentLength
        contentLength := (ch - byte '0').toNat
        flags.upgrade := p.flags.upgrade } := by
      simp [startValue, hstate, hdigit]
    have hzero : contentLengthOf [] = some 0 := by decide
    have hone := contentLengthOf_digit hzero hdigit
    refine ⟨_, _, _, hstart, ?_⟩
    rw [hstart, ValueScan, if_pos hnumber]
    refine ⟨rfl, hflags, ?_⟩
    simpa [ullongMax] using hone
  · obtain ⟨h, hstart, hscan⟩ := scan_startValue p ch (hkind ▸ hnumber)
    refine ⟨h, p.contentLength, _, hstart, ?_⟩
    rw [hstart, ValueScan, if_neg hnumber, ← hkind]
    exact ⟨hscan, by rw [hflags], hlength⟩

/-- Any other character of it. -/
theorem valueScan_matchValue (h : p.ValueScan kind f value)
    (hvalid : kind = .contentLength → contentLengthOf (value ++ [ch]) ≠ none) :
    ∃ h index n, p.matchValue ch = some { p with headerState := h, index, contentLength := n } ∧
      ({ p with headerState := h, index, contentLength := n } : HttpParser).ValueScan kind f
        (value ++ [ch]) := by
  unfold ValueScan at h ⊢
  split_ifs at h ⊢ with hnumber
  · obtain ⟨hstate, hflags, hlength⟩ := h
    have hvalid := hvalid hnumber
    have hsame : { p with headerState := .contentLength } = p := by
      rw [← hstate]
    by_cases hspace : ch = byte ' '
    · subst hspace
      refine ⟨.contentLength, p.index, p.contentLength, ?_, rfl, hflags,
        contentLengthOf_space hlength⟩
      simp [matchValue, hstate, hsame]
    · by_cases hdigit : isNum ch = true
      · rw [contentLengthOf_digit hlength hdigit] at hvalid ⊢
        have hroom : ¬(ullongMax - 10) / 10 < p.contentLength := by
          by_contra hlt
          exact hvalid (if_pos hlt)
        refine ⟨.contentLength, p.index, p.contentLength * 10 + (ch - byte '0').toNat, ?_, rfl,
          hflags, if_neg hroom⟩
        simp [matchValue, hstate, hspace, hdigit, hroom]
      · exact absurd (contentLengthOf_other value (by simpa using hdigit) hspace) hvalid
  · obtain ⟨hscan, hflags, hlength⟩ := h
    obtain ⟨h, index, hmatch, hscan⟩ := scan_matchValue ch hscan
    exact ⟨h, index, p.contentLength, hmatch, hscan, hflags, hlength⟩

/-- A character behind which there is no number. -/
theorem matchValue_invalid (h : p.ValueScan .contentLength f value)
    (hinvalid : contentLengthOf (value ++ [ch]) = none) :
    p.matchValue ch = some (p.fail .invalidContentLength) := by
  rw [ValueScan, if_pos rfl] at h
  obtain ⟨hstate, _, hlength⟩ := h
  have hspace : ch ≠ byte ' ' := by
    rintro rfl
    rw [contentLengthOf_space hlength] at hinvalid
    simp at hinvalid
  by_cases hdigit : isNum ch = true
  · rw [contentLengthOf_digit hlength hdigit] at hinvalid
    have hlt : (ullongMax - 10) / 10 < p.contentLength := by
      by_contra hroom
      rw [if_neg hroom] at hinvalid
      simp at hinvalid
    simp [matchValue, hstate, hspace, hdigit, hlt]
  · simp [matchValue, hstate, hspace, hdigit]

/-- What the end of a line sets depends on what it has found. -/
theorem endHeader_flags (p : HttpParser) : p.endHeader.flags =
    match p.headerState.settled with
    | .connectionKeepAlive => { p.flags with connectionKeepAlive := true }
    | .connectionClose => { p.flags with connectionClose := true }
    | .transferEncodingChunked => { p.flags with chunked := true }
    | _ => p.flags := by
  unfold endHeader
  cases p.headerState <;> rfl

/-- **The end of a line.** It says what the name and the value do. -/
theorem ValueScan.line {name : Bytes} (h : p.ValueScan (HeaderState.ofName name) f value)
    (hvalue : value ≠ []) : f.line name value = some ⟨p.endHeader.flags, p.contentLength⟩ := by
  rw [Framing.line, if_neg hvalue, endHeader_flags]
  unfold ValueScan at h
  split_ifs at h with hnumber
  · obtain ⟨hstate, hflags, hlength⟩ := h
    rw [hnumber, hlength, hstate, hflags]
    rfl
  · obtain ⟨hscan, hflags, hlength⟩ := h
    rw [hscan.settled_value, hflags, hlength]
    generalize HeaderState.ofName name = kind at hnumber hscan
    by_cases hupgrade : kind = .upgrade
    · subst hupgrade
      simp [HeaderState.ofValue, HeaderState.ofTexts, HeaderState.values]
    · have hflags : { f.flags with upgrade := f.flags.upgrade || decide (kind = .upgrade) } =
          f.flags := by
        simp [hupgrade]
      rw [hflags]
      split
      · contradiction
      · contradiction
      · generalize HeaderState.ofValue kind value = found
        cases found <;> rfl

end HttpParser

end Khttp
