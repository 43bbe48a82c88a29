import Khttp.Lib.Keywords
import Khttp.ParserSteps

/-!
# The header lines that the parser knows

While it reads a name or a value, the parser compares it with a few texts, in a state that stands
for what the characters so far can still become. Here is what it finds: the state behind a name
or a value is that of the text it is, in any spelling of its letters, and of no other.
-/

namespace Khttp

open Lib

namespace HeaderState

/-- The state behind the last character of a text. -/
def found : HeaderState → HeaderState
  | .matchingConnection | .matchingProxyConnection => .connection
  | .matchingContentLength => .contentLength
  | .matchingTransferEncoding => .transferEncoding
  | .matchingUpgrade => .upgrade
  | .matchingTransferEncodingChunked => .transferEncodingChunked
  | .matchingConnectionKeepAlive => .connectionKeepAlive
  | .matchingConnectionClose => .connectionClose
  | _ => .general

/-- The states of the names that the parser looks for. -/
def names : List HeaderState :=
  [.matchingConnection, .matchingProxyConnection, .matchingContentLength,
    .matchingTransferEncoding, .matchingUpgrade]

/-- The states of the values that it looks for behind a name. -/
def values : HeaderState → List HeaderState
  | .transferEncoding => [.matchingTransferEncodingChunked]
  | .connection => [.matchingConnectionKeepAlive, .matchingConnectionClose]
  | _ => []

/-- The state of the first text there is among some. -/
def ofTexts (texts : List HeaderState) (is : HeaderState → Bool) : HeaderState :=
  ((texts.find? is).map found).getD .general

/-- The state behind a name. -/
def ofName (name : Bytes) : HeaderState := ofTexts names fun m => name.map token = m.text

/-- The padding behind a value. -/
def isSpace (c : UInt8) : Bool := c = byte ' '

/-- The state behind a value: spaces may follow the text. -/
def ofValue (kind : HeaderState) (value : Bytes) : HeaderState :=
  ofTexts kind.values fun m => (value.rdropWhile isSpace).map lower = m.text

/-- What remains of a state at the end of a name. -/
def settled : HeaderState → HeaderState
  | .connection => .connection
  | .contentLength => .contentLength
  | .transferEncoding => .transferEncoding
  | .upgrade => .upgrade
  | .transferEncodingChunked => .transferEncodingChunked
  | .connectionKeepAlive => .connectionKeepAlive
  | .connectionClose => .connectionClose
  | _ => .general

end HeaderState

open HeaderState

section Scan

variable {low : UInt8 → UInt8} {pad : UInt8 → Bool} {texts : List HeaderState} {text : Bytes}

/-- What a state says of the characters read so far, where the parser looks for some texts. -/
inductive Scan (low : UInt8 → UInt8) (pad : UInt8 → Bool) (texts : List HeaderState)
    (text : Bytes) :
    HeaderState → ℕ → Prop
  /-- None of the texts. -/
  | none {index : ℕ} (hall : ∀ m ∈ texts, Differs low pad m.text text) :
      Scan low pad texts text .general index
  /-- The beginning of one of them. -/
  | part {m : HeaderState} {index : ℕ} (hm : m ∈ texts) (hbegins : Begins low m.text text)
      (hindex : index + 1 = text.length)
      (hothers : ∀ m' ∈ texts, m' ≠ m → Differs low pad m'.text text) :
      Scan low pad texts text m index
  /-- One of them. -/
  | whole {m : HeaderState} {index : ℕ} (hm : m ∈ texts) (hspells : Spells low pad m.text text)
      (hothers : ∀ m' ∈ texts, m' ≠ m → Differs low pad m'.text text) :
      Scan low pad texts text m.found index

/-- The state behind the characters. -/
theorem Scan.settled_eq {h : HeaderState} {index : ℕ} {is : HeaderState → Bool}
    (hscan : Scan low pad texts text h index)
    (htexts : ∀ m ∈ texts, m.settled = .general ∧ m.found.settled = m.found)
    (his : ∀ m ∈ texts, is m = true ↔ Spells low pad m.text text) :
    h.settled = ofTexts texts is := by
  have hnone (hall : ∀ m ∈ texts, ¬Spells low pad m.text text) : ofTexts texts is = .general := by
    rw [ofTexts, List.find?_eq_none.mpr fun m hm hs => hall m hm ((his m hm).mp hs),
      Option.map_none, Option.getD_none]
  cases hscan with
  | none hall => exact (hnone fun m hm => (hall m hm).not_spells).symm
  | part hm hbegins _ hothers =>
    rw [(htexts h hm).1, hnone fun m' hm' => ?_]
    by_cases heq : m' = h
    · exact heq ▸ hbegins.not_spells
    · exact (hothers m' hm' heq).not_spells
  | @whole m _ hm hspells hothers =>
    have hfind : texts.find? is = some m := by
      cases hfound : texts.find? is with
      | none =>
        exact absurd ((his m hm).mpr hspells) (by simpa using List.find?_eq_none.mp hfound m hm)
      | some m' =>
        have hm' := List.mem_of_find?_eq_some hfound
        by_cases heq : m' = m
        · rw [heq]
        · exact absurd ((his m' hm').mp (List.find?_some hfound)) (hothers m' hm' heq).not_spells
    rw [ofTexts, hfind, Option.map_some, Option.getD_some, (htexts m hm).2]

/-- A character that is compared with a text. -/
theorem matchText_scan {p : HttpParser} (ch : UInt8) (hm : p.headerState ∈ texts)
    (hbegins : Begins low p.headerState.text text) (hindex : p.index + 1 = text.length)
    (hothers : ∀ m' ∈ texts, m' ≠ p.headerState → Differs low pad m'.text text) :
    ∃ h, p.matchText (low ch) p.headerState.found =
        some { p with index := p.index + 1, headerState := h } ∧
      Scan low pad texts (text ++ [ch]) h (p.index + 1) := by
  have hlt := hbegins.length_lt
  obtain ⟨d, hd⟩ := hbegins.getElem?
  have hexpected : (p.headerState.text ++ [0])[p.index + 1]? = some d := by
    rw [hindex, List.getElem?_append_left hlt, hd]
  have hothers' : ∀ m' ∈ texts, m' ≠ p.headerState → Differs low pad m'.text (text ++ [ch]) :=
    fun m' hm' hne => (hothers m' hm' hne).append [ch]
  have hmatch : p.matchText (low ch) p.headerState.found = some (
      if low ch ≠ d then { p with index := p.index + 1, headerState := .general }
      else if p.index + 1 = p.headerState.text.length - 1 then
        { p with index := p.index + 1, headerState := p.headerState.found }
      else { p with index := p.index + 1 }) := by
    unfold HttpParser.matchText
    dsimp only
    rw [if_neg (by omega), hexpected, Option.map_some]
  rw [hmatch]
  by_cases hne : low ch = d
  · rw [if_neg (not_not_intro hne)]
    have hnext : p.headerState.text[text.length]? = some (low ch) := hne ▸ hd
    by_cases hlast : p.index + 1 = p.headerState.text.length - 1
    · rw [if_pos hlast]
      exact ⟨_, rfl, .whole hm (hbegins.spells hnext (by omega)) hothers'⟩
    · rw [if_neg hlast]
      refine ⟨p.headerState, rfl, .part hm (hbegins.next hnext (by omega)) ?_ hothers'⟩
      rw [List.length_append, List.length_singleton, hindex]
  · rw [if_pos hne]
    have hdiffers : Differs low pad p.headerState.text (text ++ [ch]) :=
      hbegins.differs (by simpa [hd] using Ne.symm hne)
    refine ⟨.general, rfl, .none fun m' hm' => ?_⟩
    by_cases heq : m' = p.headerState
    · exact heq ▸ hdiffers
    · exact hothers' m' hm' heq

/-- A character behind a text that was found. -/
theorem Scan.behind {m : HeaderState} (ch : UInt8) (index : ℕ) (hm : m ∈ texts)
    (hspells : Spells low pad m.text text)
    (hothers : ∀ m' ∈ texts, m' ≠ m → Differs low pad m'.text text) :
    Scan low pad texts (text ++ [ch]) (if pad ch then m.found else .general) index := by
  have hothers' : ∀ m' ∈ texts, m' ≠ m → Differs low pad m'.text (text ++ [ch]) :=
    fun m' hm' hne => (hothers m' hm' hne).append [ch]
  split_ifs with hpad
  · exact .whole hm (hspells.padded hpad) hothers'
  · refine .none fun m' hm' => ?_
    by_cases heq : m' = m
    · exact heq ▸ hspells.differs (by simpa using hpad)
    · exact hothers' m' hm' heq

end Scan

section Names

/-- No padding stands behind a name. -/
def noPad (_ : UInt8) : Bool := false

theorem noPad_eq (c : UInt8) : noPad c = false := by
  rw [noPad]

/-- What a state says of the characters of a name; with its first letters the name of one header
cannot be told from that of another. -/
inductive NameScan (name : Bytes) : HeaderState → ℕ → Prop
  /-- The names that begin with the characters. -/
  | among {h : HeaderState} {index : ℕ} (hscan : Scan token noPad names name h index) :
      NameScan name h index
  | c (hname : name.map token = ascii "c") : NameScan name .c 0
  | co (hname : name.map token = ascii "co") : NameScan name .co 1
  | con (hname : name.map token = ascii "con") : NameScan name .con 2

/-- None of the names. -/
theorem NameScan.none {name : Bytes} (index : ℕ)
    (h : ∀ m ∈ names, ¬name.map token <+: m.text) : NameScan name .general index :=
  .among (.none fun m hm => differs_of_not_pad noPad_eq (h m hm))

/-- The beginning of one name. -/
theorem NameScan.one {name : Bytes} {m : HeaderState} {index : ℕ} (hm : m ∈ names)
    (hbegins : Begins token m.text name) (hindex : index + 1 = name.length)
    (hothers : ∀ m' ∈ names, m' ≠ m → ¬name.map token <+: m'.text) : NameScan name m index :=
  .among (.part hm hbegins hindex fun m' hm' hne =>
    differs_of_not_pad noPad_eq (hothers m' hm' hne))

/-- **The state behind a name** is the one of the name. -/
theorem NameScan.settled_eq {name : Bytes} {h : HeaderState} {index : ℕ}
    (hscan : NameScan name h index) : h.settled = ofName name := by
  cases hscan with
  | among hscan =>
    refine hscan.settled_eq (by decide) fun m _ => ?_
    rw [spells_iff_of_not_pad noPad_eq, decide_eq_true_iff]
  | c hname | co hname | con hname =>
    rw [ofName, hname]
    decide

/-- The first character of a name. -/
theorem nameScan_startName (p : HttpParser) (ch : UInt8) :
    NameScan [ch] (p.startName (token ch)).headerState (p.startName (token ch)).index := by
  have hfirst : ∀ m ∈ names, m.text[0]? = some (byte 'c') ∨ m.text[0]? = some (byte 'p') ∨
      m.text[0]? = some (byte 't') ∨ m.text[0]? = some (byte 'u') := by decide
  have hnone (m' : HeaderState) (h : m'.text[0]? ≠ some (token ch)) :
      ¬[ch].map token <+: m'.text := by
    rw [← List.nil_append [ch]]
    exact not_prefix_append fun _ => h
  unfold HttpParser.startName
  dsimp only
  split_ifs with hc hp ht hu
  · exact .c (by simp [hc]; decide)
  · refine .one (by decide) ⟨byte 'r', ascii "oxy-connection", by simp [hp]; decide⟩ rfl
      fun m' hm' hne => hnone m' ?_
    rw [hp]
    revert m'
    decide
  · refine .one (by decide) ⟨byte 'r', ascii "ansfer-encoding", by simp [ht]; decide⟩ rfl
      fun m' hm' hne => hnone m' ?_
    rw [ht]
    revert m'
    decide
  · refine .one (by decide) ⟨byte 'p', ascii "grade", by simp [hu]; decide⟩ rfl
      fun m' hm' hne => hnone m' ?_
    rw [hu]
    revert m'
    decide
  · refine .none 0 fun m hm => hnone m ?_
    rcases hfirst m hm with h | h | h | h
    all_goals
      rw [h, ne_eq, Option.some.injEq]
      simpa using Ne.symm ‹_›

/-- **Every character of a name** leads to a state that says the same of the name with it. -/
theorem nameScan_matchName {p : HttpParser} {name : Bytes} {ch : UInt8} (hch : token ch ≠ 0)
    (hscan : NameScan name p.headerState p.index) :
    ∃ h index, p.matchName (token ch) ch = some { p with headerState := h, index } ∧
      NameScan (name ++ [ch]) h index := by
  have hspace : ch ≠ byte ' ' := by
    rintro rfl
    exact hch (by decide)
  have hlength (q : Bytes) (hq : name.map token = q) : name.length = q.length := by
    rw [← hq, List.length_map]
  -- the letters that the names go on with behind `c`, `co` and `con`
  have hnone (q : Bytes) (hq : name.map token = q)
      (h : ∀ m ∈ names, q <+: m.text → m.text[q.length]? ≠ some (token ch)) :
      ∀ m ∈ names, ¬(name ++ [ch]).map token <+: m.text := fun m hm =>
    not_prefix_append fun hprefix => by
      rw [hlength q hq]
      exact h m hm (hq ▸ hprefix)
  have hmap (q : Bytes) (c : UInt8) (hq : name.map token = q) (hc : token ch = c) :
      (name ++ [ch]).map token = q ++ [c] := by
    rw [List.map_append, hq, List.map_singleton, hc]
  generalize hstate : p.headerState = h at hscan
  generalize hindex : p.index = index at hscan
  unfold HttpParser.matchName
  cases hscan with
  | c hname =>
    have hnext : ∀ m ∈ names, ascii "c" <+: m.text → m.text[1]? = some (byte 'o') := by decide
    rw [hstate]
    dsimp only
    split_ifs with ho
    · refine ⟨_, _, rfl, ?_⟩
      rw [hindex]
      exact .co (hmap _ _ hname ho)
    · refine ⟨_, _, rfl, .none _ (hnone _ hname fun m hm hprefix => ?_)⟩
      rw [show (ascii "c").length = 1 by decide, hnext m hm hprefix]
      simpa using Ne.symm ho
  | co hname =>
    have hnext : ∀ m ∈ names, ascii "co" <+: m.text → m.text[2]? = some (byte 'n') := by decide
    rw [hstate]
    dsimp only
    split_ifs with hn
    · refine ⟨_, _, rfl, ?_⟩
      rw [hindex]
      exact .con (hmap _ _ hname hn)
    · refine ⟨_, _, rfl, .none _ (hnone _ hname fun m hm hprefix => ?_)⟩
      rw [show (ascii "co").length = 2 by decide, hnext m hm hprefix]
      simpa using Ne.symm hn
  | con hname =>
    have hnext : ∀ m ∈ names, ascii "con" <+: m.text →
        m.text[3]? = some (byte 'n') ∨ m.text[3]? = some (byte 't') := by decide
    have hlen : p.index + 1 + 1 = (name ++ [ch]).length := by
      rw [List.length_append, hlength _ hname, hindex, List.length_singleton]
      decide
    rw [hstate]
    dsimp only
    split_ifs with hn ht
    · refine ⟨_, _, rfl, .one (by decide)
        ⟨byte 'e', ascii "ction", by rw [hmap _ _ hname hn]; decide⟩ hlen fun m' hm' hne => ?_⟩
      rw [hmap _ _ hname hn]
      revert m'
      decide
    · refine ⟨_, _, rfl, .one (by decide)
        ⟨byte 'e', ascii "nt-length", by rw [hmap _ _ hname ht]; decide⟩ hlen fun m' hm' hne => ?_⟩
      rw [hmap _ _ hname ht]
      revert m'
      decide
    · refine ⟨_, _, rfl, .none _ (hnone _ hname fun m hm hprefix => ?_)⟩
      rw [show (ascii "con").length = 3 by decide]
      rcases hnext m hm hprefix with h | h
      all_goals
        rw [h, ne_eq, Option.some.injEq]
        simpa using Ne.symm ‹_›
  | among hscan =>
    cases hscan with
    | none hall =>
      have hsame : { p with headerState := .general, index } = p := by
        rw [← hindex, ← hstate]
      refine ⟨.general, index, ?_, .among (.none fun m hm => (hall m hm).append [ch])⟩
      rw [hsame, hstate]
    | part hm hbegins hlen hothers =>
      rw [← hstate] at hm hbegins hothers
      obtain ⟨h', heq, hscan'⟩ := matchText_scan ch hm hbegins (hindex ▸ hlen) hothers
      refine ⟨h', _, ?_, .among hscan'⟩
      rw [← heq]
      simp only [names, List.mem_cons, List.not_mem_nil, or_false] at hm
      rcases hm with hm | hm | hm | hm | hm <;> simp only [hm, HeaderState.found]
    | @whole m _ hm hspells hothers =>
      have hfound : p.matchName (token ch) ch = some { p with headerState := .general } := by
        simp only [names, List.mem_cons, List.not_mem_nil, or_false] at hm
        rcases hm with rfl | rfl | rfl | rfl | rfl <;>
          simp [HttpParser.matchName, hstate, HeaderState.found, hspace]
      refine ⟨.general, index, ?_, .among ?_⟩
      · rw [← hindex]
        exact hfound
      · simpa [noPad] using Scan.behind ch index hm hspells hothers

end Names

section Values

/-- **The state behind a value** is the one of the value. -/
theorem Scan.settled_value {kind h : HeaderState} {value : Bytes} {index : ℕ}
    (hscan : Scan lower isSpace kind.values value h index) : h.settled = ofValue kind value := by
  refine hscan.settled_eq ?_ fun m hm => ?_
  · cases kind <;> decide
  · rw [decide_eq_true_iff, spells_iff fun c hc => ?_]
    obtain rfl : c = byte ' ' := by simpa [isSpace] using hc
    cases kind <;> simp only [HeaderState.values, List.mem_cons, List.not_mem_nil, or_false] at hm
    · rcases hm with rfl | rfl <;> decide
    · subst hm
      decide

/-- No value is empty. -/
theorem begins_value {kind m : HeaderState} (hm : m ∈ kind.values) :
    Begins lower m.text ([] : Bytes) := by
  refine begins_nil ?_
  cases kind <;> simp only [HeaderState.values, List.mem_cons, List.not_mem_nil, or_false] at hm
  · rcases hm with rfl | rfl <;> decide
  · subst hm
    decide

/-- The first character of one value. -/
theorem scan_value {kind m : HeaderState} {ch c : UInt8} (hm : m ∈ kind.values)
    (hch : lower ch = c) (hfirst : m.text[0]? = some c) (hlength : 2 ≤ m.text.length)
    (hothers : ∀ m' ∈ kind.values, m' ≠ m → m'.text[0]? ≠ some c) :
    Scan lower isSpace kind.values [ch] m 0 := by
  have hbegins : Begins lower m.text ([] ++ [ch]) :=
    (begins_value hm).next (by rw [hch]; exact hfirst) (by simp; omega)
  exact .part hm hbegins rfl fun m' hm' hne =>
    (begins_value hm').differs (hch ▸ hothers m' hm' hne)

/-- The first character of none. -/
theorem scan_noValue {kind : HeaderState} {ch : UInt8}
    (h : ∀ m ∈ kind.values, m.text[0]? ≠ some (lower ch)) :
    Scan lower isSpace kind.values [ch] .general 0 :=
  .none fun m hm => (begins_value hm).differs (h m hm)

/-- The first character of a value that is no number. -/
theorem scan_startValue (p : HttpParser) (ch : UInt8)
    (hkind : p.headerState.settled ≠ .contentLength) :
    ∃ h, p.startValue ch = { p with
        state := .headerValue
        index := 0
        headerState := h
        flags.upgrade := p.flags.upgrade || p.headerState.settled = HeaderState.upgrade } ∧
      Scan lower isSpace p.headerState.settled.values [ch] h 0 := by
  unfold HttpParser.startValue
  dsimp only
  split
  case h_1 hstate =>
    rw [hstate]
    exact ⟨.general, by simp [HeaderState.settled],
      scan_noValue (by simp [HeaderState.settled, HeaderState.values])⟩
  case h_2 hstate =>
    rw [hstate]
    refine ⟨_,
      by simp only [HeaderState.settled, reduceCtorEq, decide_false, Bool.or_false]; rfl, ?_⟩
    split_ifs with hc
    · exact scan_value (by decide) hc.symm (by decide) (by decide) (by decide)
    · refine scan_noValue fun m hm => ?_
      have hfirst : ∀ m ∈ HeaderState.transferEncoding.values, m.text[0]? = some (byte 'c') := by
        decide
      rw [hfirst m hm]
      simpa using hc
  case h_3 hstate =>
    rw [hstate] at hkind
    contradiction
  case h_4 hstate =>
    rw [hstate]
    refine ⟨_,
      by simp only [HeaderState.settled, reduceCtorEq, decide_false, Bool.or_false]; rfl, ?_⟩
    split_ifs with hk hc
    · exact scan_value (by decide) hk (by decide) (by decide) (by decide)
    · exact scan_value (by decide) hc (by decide) (by decide) (by decide)
    · refine scan_noValue fun m hm => ?_
      have hfirst : ∀ m ∈ HeaderState.connection.values,
          m.text[0]? = some (byte 'k') ∨ m.text[0]? = some (byte 'c') := by decide
      rcases hfirst m hm with h | h
      all_goals
        rw [h, ne_eq, Option.some.injEq]
        simpa using Ne.symm ‹_›
  case h_5 h₁ h₂ h₃ h₄ =>
    have hnone : ¬p.headerState.settled = HeaderState.upgrade ∧
        p.headerState.settled.values = [] := by
      generalize p.headerState = h at h₁ h₂ h₃ h₄
      cases h <;> simp_all [HeaderState.settled, HeaderState.values]
    refine ⟨.general, by simp [hnone.1], ?_⟩
    rw [hnone.2]
    exact .none (by simp)

/-- **Every character of a value** that is no number leads to a state that says the same of the
value with it. -/
theorem scan_matchValue {p : HttpParser} {kind : HeaderState} {value : Bytes} (ch : UInt8)
    (hscan : Scan lower isSpace kind.values value p.headerState p.index) :
    ∃ h index, p.matchValue ch = some { p with headerState := h, index } ∧
      Scan lower isSpace kind.values (value ++ [ch]) h index := by
  have hvalues (m : HeaderState) (hm : m ∈ kind.values) : m = .matchingTransferEncodingChunked ∨
      m = .matchingConnectionKeepAlive ∨ m = .matchingConnectionClose := by
    cases kind <;> simp only [HeaderState.values, List.mem_cons, List.not_mem_nil, or_false] at hm
    · exact Or.inr hm
    · exact Or.inl hm
  generalize hstate : p.headerState = h at hscan
  generalize hindex : p.index = index at hscan
  unfold HttpParser.matchValue
  dsimp only
  cases hscan with
  | none hall =>
    have hsame : { p with headerState := .general, index } = p := by
      rw [← hindex, ← hstate]
    refine ⟨.general, index, ?_, .none fun m hm => (hall m hm).append [ch]⟩
    rw [hsame, hstate]
  | part hm hbegins hlen hothers =>
    rw [← hstate] at hm hbegins hothers
    obtain ⟨h', heq, hscan'⟩ := matchText_scan ch hm hbegins (hindex ▸ hlen) hothers
    refine ⟨h', _, ?_, hscan'⟩
    rw [← heq]
    rcases hvalues _ hm with hm | hm | hm <;> simp only [hm, HeaderState.found]
  | @whole m _ hm hspells hothers =>
    refine ⟨if isSpace ch then m.found else .general, index, ?_, .behind _ _ hm hspells hothers⟩
    rw [← hindex]
    by_cases hspace : ch = byte ' '
    · have hsame : { p with headerState := m.found } = p := by
        rw [← hstate]
      rcases hvalues m hm with rfl | rfl | rfl
      all_goals
        simp only [isSpace, hspace, decide_true, if_true, hsame]
        simp [hstate, HeaderState.found]
    · rcases hvalues m hm with rfl | rfl | rfl
      all_goals simp [hstate, HeaderState.found, isSpace, hspace]

end Values

end Khttp
