import Mathlib.Data.Bool.AllAny
import Khttp.HeaderReads

/-!
# The request line

The parser recognises a method by following the letters of one and changing to another method
where they part, and a target by the states of the URL parser. It knows the words of the method
table and no others.
-/

namespace Khttp

open Lib

namespace HttpParser

/-- The method that the next letter of a word leads to. -/
def nextMethod (m : HttpMethod) (index : ℕ) (c : UInt8) : Option HttpMethod :=
  if c = 0 then none
  else if (httpMethodStr m ++ [0])[index]? = some c then some m
  else otherMethod m index c

/-- The method that the letters of a word lead to. -/
def methodScan (m : HttpMethod) (index : ℕ) : Bytes → Option HttpMethod
  | [] => some m
  | c :: rest => (nextMethod m index c).bind fun m' => methodScan m' (index + 1) rest

/-- The first letter of a method. -/
theorem firstMethod_spec {c : UInt8} {m : HttpMethod} (h : firstMethod c = some m) :
    (httpMethodStr m).take 1 = [c] ∧ isAlpha c = true := by
  have hletters : ((ascii "CDGHLMNOPRSTU").all fun d =>
      (firstMethod d).all fun m => (httpMethodStr m).take 1 = [d] ∧ isAlpha d = true) = true := by
    decide
  by_cases hmem : c ∈ ascii "CDGHLMNOPRSTU"
  · have hletter := List.all_eq_true.mp hletters c hmem
    rw [h] at hletter
    simpa using hletter
  · have hne (d : UInt8) (hd : d ∈ ascii "CDGHLMNOPRSTU") : c ≠ d := fun heq => hmem (heq ▸ hd)
    unfold firstMethod at h
    rw [if_neg (hne (byte 'C') (by decide)), if_neg (hne (byte 'D') (by decide)),
      if_neg (hne (byte 'G') (by decide)), if_neg (hne (byte 'H') (by decide)),
      if_neg (hne (byte 'L') (by decide)), if_neg (hne (byte 'M') (by decide)),
      if_neg (hne (byte 'N') (by decide)), if_neg (hne (byte 'O') (by decide)),
      if_neg (hne (byte 'P') (by decide)), if_neg (hne (byte 'R') (by decide)),
      if_neg (hne (byte 'S') (by decide)), if_neg (hne (byte 'T') (by decide)),
      if_neg (hne (byte 'U') (by decide))] at h
    contradiction

/-- A word that a method begins with goes on with the letter. -/
theorem nextMethod_spec {m m' : HttpMethod} {index : ℕ} {c : UInt8}
    (hindex : index ≤ (httpMethodStr m).length) (h : nextMethod m index c = some m') :
    (httpMethodStr m').take (index + 1) = (httpMethodStr m).take index ++ [c] ∧
      index + 1 ≤ (httpMethodStr m').length := by
  unfold nextMethod at h
  split_ifs at h with hzero hsame
  · obtain rfl := Option.some.inj h
    have hlt : index < (httpMethodStr m).length := by
      by_contra hge
      have hend : index = (httpMethodStr m).length := by omega
      rw [hend, List.getElem?_concat_length, Option.some.injEq] at hsame
      exact hzero hsame.symm
    rw [List.getElem?_append_left hlt] at hsame
    refine ⟨?_, hlt⟩
    rw [List.take_add_one, hsame, Option.toList_some]
  · have htake := otherMethod_spec h
    have hlength := congrArg List.length htake
    simp only [List.length_take, List.length_append, List.length_singleton] at hlength
    exact ⟨htake, by omega⟩

/-- **The letters of a word** lead to methods that begin with them. -/
theorem methodScan_spec {m m' : HttpMethod} {index : ℕ} {rest : Bytes}
    (hindex : index ≤ (httpMethodStr m).length) (h : methodScan m index rest = some m') :
    (httpMethodStr m').take (index + rest.length) = (httpMethodStr m).take index ++ rest ∧
      index + rest.length ≤ (httpMethodStr m').length := by
  induction rest generalizing m index with
  | nil =>
    obtain rfl := Option.some.inj h
    exact ⟨(List.append_nil _).symm, hindex⟩
  | cons c rest ih =>
    obtain ⟨m₁, hnext, hscan⟩ := Option.bind_eq_some_iff.mp h
    obtain ⟨htake, hle⟩ := nextMethod_spec hindex hnext
    obtain ⟨htake', hle'⟩ := ih hle hscan
    have hlength : index + (rest.length + 1) = index + 1 + rest.length := by omega
    rw [List.length_cons, hlength, htake', htake, List.append_assoc, List.singleton_append]
    exact ⟨rfl, hle'⟩

/-- **Every method** is found by its letters. -/
theorem methodScan_httpMethodStr (m : HttpMethod) :
    ∃ c rest m₀, httpMethodStr m = c :: rest ∧ firstMethod c = some m₀ ∧
      methodScan m₀ 1 rest = some m := by
  cases m
  all_goals exact ⟨_, _, _, rfl, rfl, by decide⟩

/-- A method has no byte that is zero or a space. -/
theorem notMem_httpMethodStr (m : HttpMethod) :
    0 ∉ httpMethodStr m ∧ byte ' ' ∉ httpMethodStr m := by
  cases m <;> decide

variable {p : HttpParser} {ch : UInt8}

/-- A letter of a method. -/
theorem step_reqMethod (hstate : p.state = .reqMethod) (hok : p.httpErrno = .ok)
    (hlt : p.nread < httpMaxHeaderSize) (hindex : p.index ≤ (httpMethodStr p.method).length)
    (hspace : ch ≠ byte ' ') :
    p.step ch = match nextMethod p.method p.index ch with
      | some m => .next [] { p with method := m, index := p.index + 1, nread := p.nread + 1 }
      | none => .stop [] (p.counted.fail .invalidMethod) := by
  have hget : p.index < (httpMethodStr p.method ++ [0]).length := by
    rw [List.length_append, List.length_singleton]
    omega
  have hcase : p.counted.stateStep ch = p.counted.acceptCase (p.counted.reqMethod ch) [] := by
    rw [stateStep]
    simp only [counted, hstate, plainCase]
  rw [step_of_parsingHeader (by rw [hstate]; rfl) hlt, hcase, reqMethod, nextMethod]
  simp only [counted, List.getElem?_eq_getElem hget, Option.map_some, Option.some.injEq, hspace,
    false_and, if_false]
  by_cases hzero : ch = 0
  · simp only [hzero, if_true, acceptCase, accept, fail]
    rfl
  · simp only [hzero, if_false]
    by_cases hsame : ch = (httpMethodStr p.method ++ [0])[p.index]
    · rw [if_pos hsame, if_pos hsame.symm]
      exact if_pos hok
    · rw [if_neg hsame, if_neg (Ne.symm hsame)]
      cases otherMethod p.method p.index ch with
      | none => exact acceptCase_fail (by decide)
      | some m => exact if_pos hok

/-- The space behind a method. -/
theorem step_reqMethod_space (hstate : p.state = .reqMethod) (hok : p.httpErrno = .ok)
    (hlt : p.nread < httpMaxHeaderSize) (hindex : p.index ≤ (httpMethodStr p.method).length) :
    p.step (byte ' ') =
      if p.index = (httpMethodStr p.method).length then
        .next [] { p with
          state := .reqUrl .spacesBeforeUrl, index := p.index + 1, nread := p.nread + 1 }
      else .stop [] (p.counted.fail .invalidMethod) := by
  have hcase : p.counted.stateStep (byte ' ') =
      p.counted.acceptCase (p.counted.reqMethod (byte ' ')) [] := by
    rw [stateStep]
    simp only [counted, hstate, plainCase]
  have hne : byte ' ' ≠ 0 := by decide
  rw [step_of_parsingHeader (by rw [hstate]; rfl) hlt, hcase, reqMethod, if_neg hne]
  by_cases hend : p.index = (httpMethodStr p.method).length
  · have hget : (httpMethodStr p.method ++ [0])[p.index]? = some 0 := by
      rw [hend, List.getElem?_concat_length]
    rw [if_pos hend]
    dsimp only [counted]
    rw [hget]
    exact if_pos hok
  · have hlt : p.index < (httpMethodStr p.method).length := by omega
    have hget : (httpMethodStr p.method ++ [0])[p.index]? =
        some (httpMethodStr p.method)[p.index] := by
      rw [List.getElem?_append_left hlt, List.getElem?_eq_getElem hlt]
    have hmem := List.getElem_mem hlt
    have hzero : ¬(byte ' ' = byte ' ' ∧ (httpMethodStr p.method)[p.index] = 0) := fun h =>
      (notMem_httpMethodStr p.method).1 (h.2 ▸ hmem)
    have hspace : byte ' ' ≠ (httpMethodStr p.method)[p.index] := fun h =>
      (notMem_httpMethodStr p.method).2 (h ▸ hmem)
    have hother : otherMethod p.method p.index (byte ' ') = none := by
      cases h : otherMethod p.method p.index (byte ' ') with
      | none => rfl
      | some m =>
        have hmem : byte ' ' ∈ (httpMethodStr m).take (p.index + 1) := by simp [otherMethod_spec h]
        exact absurd (List.mem_of_mem_take hmem) (notMem_httpMethodStr m).2
    rw [if_neg hend]
    dsimp only [counted]
    rw [hget, Option.map_some, if_neg hzero, if_neg hspace, hother]
    exact acceptCase_fail (by decide)

/-- The letters of a method. -/
theorem reads_methodScan {rest : Bytes} {m : HttpMethod} (hstate : p.state = .reqMethod)
    (hok : p.httpErrno = .ok) (hindex : p.index ≤ (httpMethodStr p.method).length)
    (hspace : byte ' ' ∉ rest) (hscan : methodScan p.method p.index rest = some m)
    (hroom : p.nread + rest.length ≤ httpMaxHeaderSize) :
    p.Reads rest []
      { p with method := m, index := p.index + rest.length, nread := p.nread + rest.length } := by
  induction rest generalizing p with
  | nil =>
    obtain rfl := Option.some.inj hscan
    exact .nil p
  | cons c rest ih =>
    rw [List.length_cons] at hroom ⊢
    rw [List.mem_cons, not_or] at hspace
    obtain ⟨m₁, hnext, hscan⟩ := Option.bind_eq_some_iff.mp hscan
    have hstep := step_reqMethod hstate hok (by omega) hindex (Ne.symm hspace.1)
    rw [hnext] at hstep
    have hreads := ih (p := { p with method := m₁, index := p.index + 1, nread := p.nread + 1 })
      hstate hok (nextMethod_spec hindex hnext).2 hspace.2 hscan (by dsimp only; omega)
    have hlength : p.index + (rest.length + 1) = p.index + 1 + rest.length ∧
        p.nread + (rest.length + 1) = p.nread + 1 + rest.length := by omega
    rw [hlength.1, hlength.2]
    exact .cons hstep hreads

/-- The first letter of a method. -/
theorem step_startReq {c : UInt8} {m : HttpMethod} (hstate : p.state = .startReq)
    (hlt : p.nread < httpMaxHeaderSize) (hfirst : firstMethod c = some m) :
    p.step c = .next [.messageBegin] { p with
      flags := .none
      contentLength := ullongMax
      method := m
      index := 1
      state := .reqMethod
      nread := p.nread + 1 } := by
  have halpha := (firstMethod_spec hfirst).2
  have hend : ¬(c = cr ∨ c = lf) := by
    rintro (rfl | rfl) <;> simp [isAlpha] at halpha <;> revert halpha <;> decide
  have hcase : p.counted.stateStep c = p.counted.startReqStep c := by
    rw [stateStep]
    simp only [counted, hstate]
  rw [step_of_parsingHeader (by rw [hstate]; rfl) hlt, hcase, startReqStep, if_neg hend]
  simp only [halpha, hfirst]
  rfl

/-- The parser behind the method of a request line and the space that follows it. -/
def behindMethod (p : HttpParser) (m : HttpMethod) : HttpParser :=
  { p with
    flags := .none
    contentLength := ullongMax
    method := m
    index := (httpMethodStr m).length + 1
    state := .reqUrl .spacesBeforeUrl
    nread := p.nread + (httpMethodStr m).length + 1 }

/-- **A method** that is read. -/
theorem reads_method (m : HttpMethod) (hstate : p.state = .startReq) (hok : p.httpErrno = .ok)
    (hroom : p.nread + (httpMethodStr m).length + 1 ≤ httpMaxHeaderSize) :
    p.Reads (httpMethodStr m ++ [byte ' ']) [.messageBegin] (p.behindMethod m) := by
  obtain ⟨c, rest, m₀, htext, hfirst, hscan⟩ := methodScan_httpMethodStr m
  have hspace : byte ' ' ∉ rest := fun h =>
    (notMem_httpMethodStr m).2 (htext ▸ List.mem_cons_of_mem c h)
  have hlength : (httpMethodStr m).length = rest.length + 1 := by
    rw [htext, List.length_cons]
  have hone : 1 ≤ (httpMethodStr m₀).length := by
    have htake := congrArg List.length (firstMethod_spec hfirst).1
    rw [List.length_take, List.length_singleton] at htake
    omega
  have hletter := step_startReq hstate (by omega) hfirst
  have hletters := reads_methodScan (p := { p with
      flags := .none
      contentLength := ullongMax
      method := m₀
      index := 1
      state := .reqMethod
      nread := p.nread + 1 }) rfl hok hone hspace hscan (by dsimp only; omega)
  have hend := step_reqMethod_space (p := { p with
      flags := .none
      contentLength := ullongMax
      method := m
      index := 1 + rest.length
      state := .reqMethod
      nread := p.nread + 1 + rest.length }) rfl hok (by dsimp only; omega) (by dsimp only; omega)
  rw [if_pos (by dsimp only; omega)] at hend
  have hbehind : p.behindMethod m = { p with
      flags := .none
      contentLength := ullongMax
      method := m
      state := .reqUrl .spacesBeforeUrl
      index := 1 + rest.length + 1
      nread := p.nread + 1 + rest.length + 1 } := by
    rw [behindMethod, hlength]
    congr 1 <;> omega
  rw [htext, hbehind]
  exact .cons hletter (hletters.append (.single hend))

/-- A byte of the header that there is no room for. -/
theorem room_of_ok {rest : Bytes} (h : p.state.parsingHeader = true)
    (hend : (p.steps (ch :: rest)).parser.httpErrno = .ok) : p.nread < httpMaxHeaderSize := by
  by_contra hfull
  have hover : httpMaxHeaderSize < p.nread + 1 := by omega
  have hstep : p.step ch = .stop [] (p.counted.fail .headerOverflow) := by
    rw [step, h, if_pos rfl]
    exact if_pos hover
  rw [steps, hstep] at hend
  simp [fail] at hend

/-- What a word behind its first letter must be. -/
theorem methodScan_of_ok {rest : Bytes} (hstate : p.state = .reqMethod) (hok : p.httpErrno = .ok)
    (hindex : p.index ≤ (httpMethodStr p.method).length) (hspace : byte ' ' ∉ rest)
    (hend : (p.steps (rest ++ [byte ' '])).parser.httpErrno = .ok) :
    ∃ m, methodScan p.method p.index rest = some m ∧
      p.index + rest.length = (httpMethodStr m).length := by
  induction rest generalizing p with
  | nil =>
    have hlt := room_of_ok (by rw [hstate]; rfl) hend
    rw [List.nil_append, steps, step_reqMethod_space hstate hok hlt hindex] at hend
    by_cases hlength : p.index = (httpMethodStr p.method).length
    · exact ⟨p.method, rfl, hlength⟩
    · rw [if_neg hlength] at hend
      simp [fail] at hend
  | cons c rest ih =>
    rw [List.mem_cons, not_or] at hspace
    rw [List.cons_append] at hend
    have hlt := room_of_ok (by rw [hstate]; rfl) hend
    rw [steps, step_reqMethod hstate hok hlt hindex (Ne.symm hspace.1)] at hend
    cases hnext : nextMethod p.method p.index c with
    | none =>
      rw [hnext] at hend
      simp [fail] at hend
    | some m₁ =>
      rw [hnext] at hend
      obtain ⟨m, hscan, hlength⟩ :=
        ih (p := { p with method := m₁, index := p.index + 1, nread := p.nread + 1 })
        hstate hok (nextMethod_spec hindex hnext).2 hspace.2 hend
      refine ⟨m, by rw [methodScan, hnext, Option.bind_some, hscan], ?_⟩
      dsimp only at hlength
      rw [List.length_cons]
      omega

/-- **A word** in front of a space is read only if it is a method. -/
theorem method_of_ok {word : Bytes} (hstate : p.state = .startReq) (hok : p.httpErrno = .ok)
    (hspace : byte ' ' ∉ word) (hfirst : ∀ c ∈ word.head?, c ≠ cr ∧ c ≠ lf)
    (hend : (p.steps (word ++ [byte ' '])).parser.httpErrno = .ok) :
    ∃ m, httpMethodStr m = word := by
  have hheader : p.state.parsingHeader = true := by rw [hstate]; rfl
  have hcase (ch : UInt8) (hlt : p.nread < httpMaxHeaderSize) (hch : ch ≠ cr ∧ ch ≠ lf)
      (hnone : firstMethod ch = none) :
      ∃ q : HttpParser, p.step ch = .stop [] (q.fail .invalidMethod) := by
    have hstep : p.counted.stateStep ch = p.counted.startReqStep ch := by
      rw [stateStep]
      simp only [counted, hstate]
    rw [step_of_parsingHeader hheader hlt, hstep, startReqStep, if_neg (not_or.mpr hch)]
    simp only [hnone]
    split_ifs <;> exact ⟨_, rfl⟩
  cases word with
  | nil =>
    obtain ⟨q, hstep⟩ := hcase (byte ' ') (room_of_ok hheader hend) (by decide) (by decide)
    rw [List.nil_append, steps, hstep] at hend
    simp [fail] at hend
  | cons c rest =>
    rw [List.mem_cons, not_or] at hspace
    rw [List.cons_append] at hend
    have hlt := room_of_ok hheader hend
    rw [steps] at hend
    cases hc : firstMethod c with
    | none =>
      obtain ⟨q, hstep⟩ := hcase c hlt (hfirst c rfl) hc
      rw [hstep] at hend
      simp [fail] at hend
    | some m₀ =>
      obtain ⟨htake, _⟩ := firstMethod_spec hc
      have hone : 1 ≤ (httpMethodStr m₀).length := by
        have hlength := congrArg List.length htake
        rw [List.length_take, List.length_singleton] at hlength
        omega
      rw [step_startReq hstate hlt hc] at hend
      obtain ⟨m, hscan, hlength⟩ := methodScan_of_ok (p := { p with
        flags := .none
        contentLength := ullongMax
        method := m₀
        index := 1
        state := .reqMethod
        nread := p.nread + 1 }) rfl hok hone hspace.2 hend
      obtain ⟨hword, _⟩ := methodScan_spec hone hscan
      dsimp only at hlength
      rw [hlength, List.take_length, htake, List.singleton_append] at hword
      exact ⟨m, hword⟩

end HttpParser

/-- The states that a target may end in. -/
def UrlState.endsTarget : UrlState → Bool
  | .server | .serverWithAt | .path | .queryStringStart | .queryString | .fragmentStart
  | .fragment => true
  | _ => false

/-- The state of the URL parser behind a target. -/
def urlState (target : Bytes) : UrlState := target.foldl parseUrlChar .spacesBeforeUrl

/-- A request line as it is written, of a method that does not ask for another protocol. -/
structure WrittenTarget where
  /-- The method. -/
  method : HttpMethod
  /-- The target. -/
  target : Bytes
  /-- The major version. -/
  major : ℕ
  /-- The minor version. -/
  minor : ℕ
  /-- `CONNECT` leaves the protocol. -/
  method_ne : method ≠ .connect
  /-- The target is a URL. -/
  ends : (urlState target).endsTarget = true
  /-- The versions have one digit each. -/
  major_le : 1 ≤ major ∧ major ≤ 9
  /-- The versions have one digit each. -/
  minor_le : minor ≤ 9
  deriving DecidableEq, Repr

/-- The digit of a number. -/
def digit (n : ℕ) : UInt8 := byte '0' + n.toUInt8

namespace WrittenTarget

/-- `HTTP/` and the version. -/
def version (r : WrittenTarget) : Bytes :=
  ascii "HTTP/" ++ [digit r.major, byte '.', digit r.minor] ++ crlf

/-- The bytes of a request line. -/
def bytes (r : WrittenTarget) : Bytes :=
  httpMethodStr r.method ++ byte ' ' :: r.target ++ byte ' ' :: r.version

end WrittenTarget

/-- Nothing leads out of an invalid URL. -/
theorem foldl_parseUrlChar_dead (text : Bytes) : text.foldl parseUrlChar .dead = .dead := by
  induction text with
  | nil => rfl
  | cons c text ih =>
    have hdead : parseUrlChar .dead c = .dead := by simp [parseUrlChar]
    rw [List.foldl_cons, hdead, ih]

/-- A character of a URL is no space and does not end the line. -/
theorem ne_of_parseUrlChar {u : UrlState} {c : UInt8} (h : parseUrlChar u c ≠ .dead) :
    c ≠ byte ' ' ∧ c ≠ cr ∧ c ≠ lf := by
  have hnot : (ascii " \r\n\t\x0c").contains c ≠ true := fun hmem => h (by
    unfold parseUrlChar
    rw [if_pos hmem])
  refine ⟨?_, ?_, ?_⟩
  all_goals
    rintro rfl
    exact hnot (by decide)

namespace HttpParser

variable {p : HttpParser} {ch : UInt8}

/-- A byte of a target. -/
theorem step_reqUrl {u : UrlState} (hstate : p.state = .reqUrl u)
    (hlt : p.nread < httpMaxHeaderSize) : p.step ch = p.counted.reqUrlStep ch u := by
  rw [step_of_parsingHeader (by rw [hstate]; rfl) hlt, stateStep]
  simp only [counted, hstate]

/-- A character of a target. -/
theorem step_target {u : UrlState} (hstate : p.state = .reqUrl u) (hmethod : p.method ≠ .connect)
    (hlt : p.nread < httpMaxHeaderSize) (halive : parseUrlChar u ch ≠ .dead) :
    p.step ch = .next [.url (httpMethodStr p.method) [ch]]
      { p with state := .reqUrl (parseUrlChar u ch), nread := p.nread + 1 } := by
  obtain ⟨hspace, hcr, hlf⟩ := ne_of_parseUrlChar halive
  have htarget : p.counted.targetStep ch u = .next [.url (httpMethodStr p.method) [ch]]
      { p with state := .reqUrl (parseUrlChar u ch), nread := p.nread + 1 } := by
    unfold targetStep
    cases hnext : parseUrlChar u ch
    case dead => contradiction
    all_goals rfl
  rw [step_reqUrl hstate hlt, ← htarget]
  have hmethod' : p.counted.method ≠ .connect := hmethod
  cases u
  case dead =>
    exact absurd (by simp [parseUrlChar]) halive
  all_goals simp [reqUrlStep, hspace, hcr, hlf, hmethod']

/-- The characters of a target. -/
theorem reads_target {u : UrlState} {target : Bytes} (hstate : p.state = .reqUrl u)
    (hmethod : p.method ≠ .connect) (halive : target.foldl parseUrlChar u ≠ .dead)
    (hroom : p.nread + target.length ≤ httpMaxHeaderSize) :
    p.Reads target (target.map fun c => .url (httpMethodStr p.method) [c])
      { p with
        state := .reqUrl (target.foldl parseUrlChar u), nread := p.nread + target.length } := by
  induction target generalizing p u with
  | nil =>
    have hsame : { p with state := .reqUrl u } = p := by rw [← hstate]
    simpa [hsame] using Reads.nil p
  | cons c target ih =>
    rw [List.length_cons] at hroom ⊢
    rw [List.foldl_cons] at halive ⊢
    have hc : parseUrlChar u c ≠ .dead := fun hdead =>
      halive (by rw [hdead, foldl_parseUrlChar_dead])
    have hstep := step_target hstate hmethod (by omega) hc
    have hreads := ih (p := { p with state := .reqUrl (parseUrlChar u c), nread := p.nread + 1 })
      rfl hmethod halive (by dsimp only; omega)
    have hlength : p.nread + (target.length + 1) = p.nread + 1 + target.length := by omega
    rw [hlength]
    exact .cons hstep hreads

/-- A digit stands for its number. -/
theorem digit_spec {n : ℕ} (h : n ≤ 9) :
    isNum (digit n) = true ∧ (digit n - byte '0').toNat = n ∧
      (1 ≤ n → byte '1' ≤ digit n ∧ digit n ≤ byte '9') := by
  have hdigits : ∀ n < 10, isNum (digit n) = true ∧ (digit n - byte '0').toNat = n ∧
      (1 ≤ n → byte '1' ≤ digit n ∧ digit n ≤ byte '9') := by decide
  exact hdigits n (by omega)

/-- The parser at some place of a version. -/
def atVersion (p : HttpParser) (state : ParserState) (read major minor : ℕ) : HttpParser :=
  { p with state, httpMajor := major, httpMinor := minor, nread := p.nread + read }

/-- A byte of a version. -/
theorem step_atVersion {s s' : ParserState} {k major minor major' minor' : ℕ}
    (hok : p.httpErrno = .ok) (hplain : s.IsPlain) (h : s.parsingHeader = true)
    (hlt : p.nread + k < httpMaxHeaderSize)
    (hcase : (p.atVersion s (k + 1) major minor).plainCase ch =
      some (p.atVersion s' (k + 1) major' minor')) :
    (p.atVersion s k major minor).step ch = .next [] (p.atVersion s' (k + 1) major' minor') :=
  step_plain hplain h hlt hcase hok

/-- The version of a request line, behind the space that ends its target. -/
theorem reads_version {major minor : ℕ} (hstate : p.state = .reqHttpStart) (hok : p.httpErrno = .ok)
    (hmajor : 1 ≤ major ∧ major ≤ 9) (hminor : minor ≤ 9)
    (hroom : p.nread + 10 ≤ httpMaxHeaderSize) :
    p.Reads (ascii "HTTP/" ++ [digit major, byte '.', digit minor] ++ crlf) []
      (p.atVersion .headerFieldStart 10 major minor) := by
  obtain ⟨_, hmajorDigit, hmajorRange⟩ := digit_spec hmajor.2
  obtain ⟨hminorNum, hminorDigit, _⟩ := digit_spec hminor
  obtain ⟨hone, hnine⟩ := hmajorRange hmajor.1
  have htext : ascii "HTTP/" ++ [digit major, byte '.', digit minor] ++ crlf =
      [byte 'H', byte 'T', byte 'T', byte 'P', byte '/', digit major, byte '.', digit minor, cr,
        lf] := rfl
  have hstart : p = p.atVersion .reqHttpStart 0 p.httpMajor p.httpMinor := by
    rw [atVersion, ← hstate]
    rfl
  -- the bytes one after the other
  have h₀ : (p.atVersion .reqHttpStart 0 p.httpMajor p.httpMinor).step (byte 'H') = _ :=
    step_atVersion hok trivial rfl (by omega) rfl
  have h₁ : (p.atVersion .reqHttpH 1 p.httpMajor p.httpMinor).step (byte 'T') = _ :=
    step_atVersion hok trivial rfl (by omega) rfl
  have h₂ : (p.atVersion .reqHttpHT 2 p.httpMajor p.httpMinor).step (byte 'T') = _ :=
    step_atVersion hok trivial rfl (by omega) rfl
  have h₃ : (p.atVersion .reqHttpHTT 3 p.httpMajor p.httpMinor).step (byte 'P') = _ :=
    step_atVersion hok trivial rfl (by omega) rfl
  have h₄ : (p.atVersion .reqHttpHTTP 4 p.httpMajor p.httpMinor).step (byte '/') = _ :=
    step_atVersion hok trivial rfl (by omega) rfl
  have h₅ : (p.atVersion .reqFirstHttpMajor 5 p.httpMajor p.httpMinor).step (digit major) =
      .next [] (p.atVersion .reqHttpMajor 6 major p.httpMinor) :=
    step_atVersion hok trivial rfl (by omega)
      (by simp [plainCase, atVersion, hone, hnine, hmajorDigit])
  have h₆ : (p.atVersion .reqHttpMajor 6 major p.httpMinor).step (byte '.') = _ :=
    step_atVersion hok trivial rfl (by omega) rfl
  have h₇ : (p.atVersion .reqFirstHttpMinor 7 major p.httpMinor).step (digit minor) =
      .next [] (p.atVersion .reqHttpMinor 8 major minor) :=
    step_atVersion hok trivial rfl (by omega)
      (by simp [plainCase, atVersion, hminorNum, hminorDigit])
  have h₈ : (p.atVersion .reqHttpMinor 8 major minor).step cr = _ :=
    step_atVersion hok trivial rfl (by omega) rfl
  have h₉ : (p.atVersion .reqLineAlmostDone 9 major minor).step lf = _ :=
    step_atVersion hok trivial rfl (by omega) rfl
  have hreads := Reads.cons h₀ (.cons h₁ (.cons h₂ (.cons h₃ (.cons h₄ (.cons h₅ (.cons h₆ (.cons h₇
    (.cons h₈ (.single h₉)))))))))
  rw [htext]
  rwa [← hstart] at hreads

/-- **The request line**, behind which there are header lines. -/
theorem reads_requestLine {n : ℕ} (r : WrittenTarget) (hstate : p.state = .startReq)
    (hok : p.httpErrno = .ok) (hupgrade : p.upgrade = false) (hnread : p.nread = n)
    (hroom : n + r.bytes.length ≤ httpMaxHeaderSize) :
    ∃ cs q, p.Reads r.bytes cs q ∧ q.state = .headerFieldStart ∧
      q.LineStart .none (n + r.bytes.length) (r.major, r.minor, r.method, false) ∧
      SameTexts cs [.messageBegin, .url (httpMethodStr r.method) r.target] := by
  have hversion : r.version.length = 10 := rfl
  have hlength : r.bytes.length =
      (httpMethodStr r.method).length + 1 + r.target.length + 1 + 10 := by
    simp only [WrittenTarget.bytes, List.length_append, List.length_cons, hversion]
    omega
  have hne : r.target ≠ [] := by
    intro hnil
    have hends := r.ends
    simp [urlState, hnil, UrlState.endsTarget] at hends
  have halive : r.target.foldl parseUrlChar .spacesBeforeUrl ≠ .dead := by
    intro hdead
    have hends := r.ends
    simp [urlState, hdead, UrlState.endsTarget] at hends
  have hmethod := reads_method r.method hstate hok (by omega)
  have htarget := reads_target (p := p.behindMethod r.method) rfl r.method_ne halive
    (by simp only [behindMethod]; omega)
  have hspace : ({ p.behindMethod r.method with
      state := .reqUrl (urlState r.target)
      nread := (p.behindMethod r.method).nread + r.target.length } : HttpParser).step (byte ' ') =
      .next [] { p.behindMethod r.method with
        state := .reqHttpStart
        nread := (p.behindMethod r.method).nread + r.target.length + 1 } := by
    rw [step_reqUrl rfl (by simp only [behindMethod]; omega)]
    have hends := r.ends
    cases hu : urlState r.target <;> simp [hu, UrlState.endsTarget] at hends <;> rfl
  have hend := reads_version (p := { p.behindMethod r.method with
    state := .reqHttpStart
    nread := (p.behindMethod r.method).nread + r.target.length + 1 }) rfl hok r.major_le r.minor_le
    (by simp only [behindMethod]; omega)
  have hreads := hmethod.append (htarget.append (.cons hspace hend))
  refine ⟨[.messageBegin] ++ r.target.map fun c => .url (httpMethodStr r.method) [c],
    ({ p.behindMethod r.method with
      state := .reqHttpStart
      nread := (p.behindMethod r.method).nread + r.target.length + 1 } :
        HttpParser).atVersion .headerFieldStart 10 r.major r.minor,
    ?_, rfl, ⟨Or.inl rfl, hok, rfl, rfl, ?_, ?_⟩, ?_⟩
  · have hsame : (p.behindMethod r.method).method = r.method := rfl
    rw [hsame] at hreads
    simpa [WrittenTarget.bytes, WrittenTarget.version] using hreads
  · simp only [atVersion, behindMethod]
    omega
  · simp only [atVersion, behindMethod, hupgrade]
  · have hpieces := TextKind.sameTexts_pieces (.url (httpMethodStr r.method)) hne
    exact hpieces.append_right [.messageBegin]

end HttpParser

/-- **The methods** are recognised exactly: a word in front of the first space of a stream is
accepted where it is in the table of the methods, and is then that method. -/
theorem executeStream_method {word : Bytes} {buffers : List Bytes}
    (hne : ∀ data ∈ buffers, data ≠ []) (hflatten : buffers.flatten = word ++ [byte ' '])
    (hspace : byte ' ' ∉ word) (hfirst : ∀ c ∈ word.head?, c ≠ cr ∧ c ≠ lf) :
    ∃ cs p parsed, (HttpParser.init.executeStream buffers).record 0 = some (cs, p, parsed) ∧
      ∀ m, p.httpErrno = .ok ∧ p.method = m ↔ httpMethodStr m = word := by
  have hinit : SameTexts ([] ++ HttpParser.init.opening.toList) [] := .refl []
  obtain ⟨cs, hcs, _⟩ := executeStream_agrees HttpParser.sound_init rfl hne hinit
  rw [hflatten] at hcs
  have hread (m : HttpMethod) (hm : httpMethodStr m = word) :
      (HttpParser.init.steps (word ++ [byte ' '])).parser = HttpParser.init.behindMethod m := by
    have hlength := HttpParser.length_httpMethodStr_le m
    have hzero : HttpParser.init.nread = 0 := by decide
    have hreads := HttpParser.reads_method (p := .init) m rfl rfl (by
      unfold httpMaxHeaderSize
      omega)
    rw [hm] at hreads
    rw [hreads.steps_eq]
  refine ⟨cs, _, _, hcs, fun m => ⟨?_, fun hm => ?_⟩⟩
  · rintro ⟨hok, rfl⟩
    obtain ⟨m, hm⟩ := HttpParser.method_of_ok rfl rfl hspace hfirst hok
    rw [hread m hm]
    exact hm
  · rw [hread m hm]
    exact ⟨rfl, rfl⟩

/-- A method that comes in three buffers. -/
theorem executeStream_method_search :
    ∃ cs p parsed, (HttpParser.init.executeStream
      [ascii "M", ascii "-SEA", ascii "RCH "]).record 0 =
        some (cs, p, parsed) ∧
      ∀ m, p.httpErrno = .ok ∧ p.method = m ↔ httpMethodStr m = ascii "M-SEARCH" :=
  executeStream_method (by decide) (by decide) (by decide) (forall_head_of_all (by decide))

/-- **The header lines** decide the framing exactly: behind a request line they are accepted where
every length among them is a number that the parser can count. The flags and the length are then
those that the names and the values say, and the callbacks are those of the names and the values;
that of an empty value at the end is still owed. -/
theorem executeStream_lines (r : WrittenTarget) {lines : List WrittenLine} {buffers : List Bytes}
    (hne : ∀ data ∈ buffers, data ≠ [])
    (hflatten : buffers.flatten = r.bytes ++ lines.flatMap WrittenLine.bytes)
    (hroom : buffers.flatten.length ≤ httpMaxHeaderSize) :
    ∃ cs p parsed, (HttpParser.init.executeStream buffers).record 0 = some (cs, p, parsed) ∧
      (p.httpErrno = .ok ↔ Framing.none.lines lines ≠ none) ∧
      ∀ f, Framing.none.lines lines = some f →
        p.atLine.flags = f.flags ∧ p.contentLength = f.contentLength ∧
          SameTexts (cs ++ p.owed) (.messageBegin :: .url (httpMethodStr r.method) r.target ::
            lines.flatMap fun line => line.parsed.callbacks r.major r.minor) := by
  have hinit : SameTexts ([] ++ HttpParser.init.opening.toList) [] := .refl []
  obtain ⟨cs, hcs, left, hsame, hleft⟩ := executeStream_agrees HttpParser.sound_init rfl hne hinit
  rw [hflatten] at hcs hroom hsame hleft
  rw [List.length_append] at hroom
  refine ⟨cs, _, _, hcs, ?_⟩
  obtain ⟨ev, q, hline, hstart, hq, htarget⟩ :=
    HttpParser.reads_requestLine (p := .init) (n := 0) r rfl rfl rfl
    rfl (by omega)
  cases hlines : Framing.none.lines lines with
  | none =>
    have hfails := hline.fails (hq.fails_lines hlines (by omega)) []
    rw [List.append_nil] at hfails
    exact ⟨by simp [hfails], by simp⟩
  | some f =>
    obtain ⟨ev', q', hreads, hq', hlater⟩ := hq.reads_lines hlines (by omega)
    rw [(hline.append hreads).steps_eq] at hsame hleft ⊢
    refine ⟨by simp [hq'.ok], fun f' hf' => ?_⟩
    obtain rfl := Option.some.inj hf'
    refine ⟨hq'.flags, hq'.contentLength, ?_⟩
    obtain rfl := hleft hq'.ok
    have hnothing : q.owed = [] := by simp [HttpParser.owed, hstart]
    rw [hnothing, List.nil_append] at hlater
    simp only [List.nil_append, Option.toList_none, List.append_nil] at hsame
    have hmade := hsame.symm.append_left q'.owed
    rw [List.append_assoc] at hmade
    exact hmade.trans (htarget.append hlater)

/-- A request line. -/
def getRoot : WrittenTarget := ⟨.get, ascii "/", 1, 1, by decide, by decide, by decide, by decide⟩

/-- A length whose digits a space divides. -/
def spacedLength : WrittenLine :=
  ⟨ascii "content-LENGTH", ascii " ", ascii "1 2", by decide,
    List.all_iff_forall_prop.mp (by decide), List.all_iff_forall_prop.mp (by decide),
    forall_head_of_all (by decide), List.all_iff_forall_prop.mp (by decide)⟩

/-- The length is the number of all digits. -/
theorem executeStream_lines_spaced :
    ∃ cs p parsed, (HttpParser.init.executeStream
        [ascii "GET / HTTP/1.1\r\ncontent", ascii "-LENGTH: 1 2\r\n"]).record 0 =
          some (cs, p, parsed) ∧
      (p.httpErrno = .ok ↔ Framing.none.lines [spacedLength] ≠ none) ∧
      ∀ f, Framing.none.lines [spacedLength] = some f →
        p.atLine.flags = f.flags ∧ p.contentLength = f.contentLength ∧
          SameTexts (cs ++ p.owed) (.messageBegin :: .url (ascii "GET") (ascii "/") ::
            [spacedLength].flatMap fun line => line.parsed.callbacks 1 1) :=
  executeStream_lines getRoot (by decide) (by decide) (by decide)

end Khttp
