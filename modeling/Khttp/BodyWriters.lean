import Khttp.ContentLength

/-!
# The three writers of a body

`http_body_writeto_fd`, `http_body_writeto_str` and `http_body_writeto_utstring` are three copies
of one loop. They differ in what they do with the bytes: `write` may take a part of them, `strncat`
stops at a zero byte and needs room for another one, and `utstring_bincpy` is given the start of a
string or mapping where it should be given the place that `rOffset` tells.
-/

namespace Khttp

namespace HttpBody

/-- `_http_body_file_fill_buffer`: its result, and what it read into the buffer. -/
def fileFillBuffer (bufLen readLen : ℕ) (src : Bytes) (offset : ℕ) :
    ReadOutcome → HttpBodyWriteResult × Bytes
  | .full => (.more, (src.drop offset).take (min readLen bufLen))
  | .short k => (.done, ((src.drop offset).take (min readLen bufLen)).take k)
  | .failed => (.error, [])

/-- `body->rOffset += written`: the count is -1 until something was written, and the offset is a
`size_t`. -/
def addWritten (body : HttpBody) : Option ℕ → HttpBody
  | some written => { body with rOffset := body.rOffset + written }
  | none => { body with rOffset := (body.rOffset + (2 ^ 64 - 1)) % 2 ^ 64 }

end HttpBody

/-- What the system does in one round of `http_body_writeto_fd`. -/
structure FdRound where
  /-- What `write` does. -/
  write : WriteOutcome
  /-- What `fread` does. -/
  read : ReadOutcome
  /-- Whether `errno` says to try again where no call of the round sets it. -/
  errnoAgain : Bool
  deriving DecidableEq, Repr

/-- One round of the loop of `http_body_writeto_fd`. -/
def BodyTransfer.round (s : BodyTransfer) (r : FdRound) : BodyTransfer :=
  match s.body.round r.write r.read r.errnoAgain with
  | .returned => { s with returned := some .done }
  | .wrote offered body result =>
    ⟨body, s.sent ++ offered.take (body.rOffset - s.body.rOffset),
      if result = .more then none else some result⟩
  | .noRead result => { s with returned := some result }

/-- The loop of `http_body_writeto_fd`, which has not returned where the rounds end too soon. -/
def BodyTransfer.loop : List FdRound → BodyTransfer → BodyTransfer
  | [], s => s
  | r :: rounds, s => if (s.round r).returned = none then loop rounds (s.round r) else s.round r

/-- `http_body_writeto_fd`, with the bytes that the descriptor accepts. It has no result where the
assertion fails. -/
def httpBodyWritetoFd (body : HttpBody) (rounds : List FdRound) : Option BodyTransfer :=
  if body.HasData then some (BodyTransfer.loop rounds ⟨body, [], none⟩) else none

/-- What a writer that copies does with its target. -/
structure CopyTarget (τ : Type) where
  /-- Where it copies a string or a mapping from. -/
  source : HttpBody → Bytes
  /-- What it does to the target before it copies. -/
  reserve : τ → τ
  /-- How it appends a number of bytes when so many remain of the body. It has no result where it
  writes past an allocation. -/
  append : τ → ℕ → Bytes → ℕ → Option τ

/-- A call of a writer that copies. -/
structure CopyCall (τ : Type) where
  /-- The body. -/
  body : HttpBody
  /-- The target. -/
  target : τ
  /-- What the call returned, if it is over. -/
  returned : Option HttpBodyWriteResult
  deriving DecidableEq, Repr

namespace CopyTarget

variable {τ : Type} (writer : CopyTarget τ)

/-- One round of the loop of `http_body_writeto_str` and `http_body_writeto_utstring`. -/
def round (body : HttpBody) (target : τ) (read : ReadOutcome) : Option (CopyCall τ) :=
  if body.rOffset < body.len then
    let writeLen := body.len - body.rOffset
    match body.type with
    | .bodyNone | .bodyString | .bodyFilemap =>
      (writer.append target writeLen (writer.source body) writeLen).map fun target =>
        ⟨body.addWritten (some writeLen), target, none⟩
    | .bodyFile =>
      let (readRes, buffer) := HttpBody.fileFillBuffer HttpBody.bufferLen writeLen body.bytes
        body.rOffset read
      let returned := if readRes = .more then none else some readRes
      -- a failed read leaves the count at -1, and so does one that delivers nothing
      if 0 < buffer.length then
        (writer.append target writeLen buffer buffer.length).map fun target =>
          ⟨body.addWritten (some buffer.length), target, returned⟩
      else some ⟨body.addWritten none, writer.reserve target, returned⟩
  else some ⟨body, target, some .done⟩

/-- The loop, which has not returned where the reads end too soon. -/
def loop : List ReadOutcome → CopyCall τ → Option (CopyCall τ)
  | [], s => some s
  | read :: reads, s =>
    (writer.round s.body s.target read).bind fun s =>
      if s.returned = none then loop reads s else some s

/-- A writer that copies. It has no result where the assertion fails. -/
def call (body : HttpBody) (target : τ) (reads : List ReadOutcome) : Option (CopyCall τ) :=
  if body.HasData then writer.loop reads ⟨body, target, none⟩ else none

end CopyTarget

/-- `calloc` or `realloc` of the string, and `strncat`: a new string gets no room for its
terminator. -/
def growStrncat (str : Option Bytes) (writeLen : ℕ) (src : Bytes) (n : ℕ) : Option (Option Bytes) :=
  let old := cstr (str.getD [])
  let size := if str = none then writeLen else old.length + writeLen + 1
  let added := cstr (src.take n)
  if old.length + added.length < size then some (some (old ++ added)) else none

/-- What `http_body_writeto_str` does with a string. -/
def strTarget : CopyTarget (Option Bytes) where
  source body := body.bytes.drop body.rOffset
  reserve str := some (cstr (str.getD []))
  append := growStrncat

/-- What `http_body_writeto_utstring` does with a string: `rOffset` is not added. -/
def utstringTarget : CopyTarget Bytes where
  source body := body.bytes
  reserve utstr := utstr
  append utstr _ src n := some (utstr ++ src.take n)

/-- `http_body_writeto_str`. -/
def httpBodyWritetoStr (body : HttpBody) (str : Option Bytes) (reads : List ReadOutcome) :
    Option (CopyCall (Option Bytes)) := strTarget.call body str reads

/-- `http_body_writeto_utstring`. -/
def httpBodyWritetoUtstring (body : HttpBody) (utstr : Bytes) (reads : List ReadOutcome) :
    Option (CopyCall Bytes) := utstringTarget.call body utstr reads

/-- The text of a string, which is empty when it is null. -/
def text (str : Option Bytes) : Bytes := cstr (str.getD [])

namespace HttpBody

/-- The bytes that remain are those between the offset and the length. -/
theorem length_remaining (body : HttpBody) : body.remaining.length = body.len - body.rOffset := by
  simp [remaining, len]

/-- Something remains exactly while the loop goes on. -/
theorem remaining_ne_nil_iff {body : HttpBody} : body.remaining ≠ [] ↔ body.rOffset < body.len := by
  rw [← List.length_pos_iff, length_remaining]
  omega

/-- The bytes that are read of a file at once. -/
def window (body : HttpBody) : Bytes := body.remaining.take bufferLen

/-- What the buffer is filled with. -/
theorem fileFillBuffer_eq (body : HttpBody) (read : ReadOutcome) :
    fileFillBuffer bufferLen (body.len - body.rOffset) body.bytes body.rOffset read =
      match read with
      | .full => (.more, body.window)
      | .short k => (.done, body.window.take k)
      | .failed => (.error, []) := by
  have hwindow : (body.bytes.drop body.rOffset).take (min (body.len - body.rOffset) bufferLen) =
      body.window := by
    rw [← length_remaining, window, ← remaining, List.take_eq_take_iff]
    omega
  cases read <;> simp only [fileFillBuffer, hwindow]

/-- The window of a body of which something remains is not empty. -/
theorem length_window_pos {body : HttpBody} (h : body.remaining ≠ []) : 0 < body.window.length := by
  have hpos := List.length_pos_iff.mpr h
  have hbuffer : 0 < bufferLen := by decide
  rw [window, List.length_take]
  omega

/-- The window is the front of what remains. -/
theorem window_append (body : HttpBody) :
    body.window ++ body.remaining.drop body.window.length = body.remaining := by
  have hwindow : body.window = body.remaining.take body.window.length := by
    simp [window]
  nth_rewrite 1 [hwindow]
  exact List.take_append_drop _ _

/-- A round of `http_body_writeto_fd` for a file offers what was read into the buffer. -/
theorem round_file {body : HttpBody} (htype : body.type = .bodyFile)
    (hremaining : body.remaining ≠ []) (write : WriteOutcome) (read : ReadOutcome)
    (errnoAgain : Bool) :
    body.round write read errnoAgain =
      if 0 < (fileFillBuffer bufferLen (body.len - body.rOffset) body.bytes body.rOffset
          read).2.length then
        body.offer (fileFillBuffer bufferLen (body.len - body.rOffset) body.bytes body.rOffset
          read).2 (fileFillBuffer bufferLen (body.len - body.rOffset) body.bytes body.rOffset
          read).1 write
      else .noRead (failure errnoAgain) := by
  have hwindow := length_window_pos hremaining
  have hlt := remaining_ne_nil_iff.mp hremaining
  rw [round, if_pos hlt, htype, fileFillBuffer_eq]
  cases read with
  | full => exact (if_pos hwindow).symm
  | failed => rfl
  | short k =>
    by_cases hk : 0 < k
    · have hread : 0 < (body.window.take k).length := by
        rw [List.length_take]
        omega
      simp only [if_pos hread, if_pos hk]
      rfl
    · obtain rfl : k = 0 := by omega
      simp

end HttpBody

/-- The body after all that remains of it was written. -/
def HttpBody.sent (body : HttpBody) : HttpBody :=
  { body with rOffset := body.rOffset + body.remaining.length }

/-- A part of a body is written, and then the rest. -/
theorem HttpBody.sent_advance {body : HttpBody} {n : ℕ} (hn : n ≤ body.remaining.length) :
    HttpBody.sent { body with rOffset := body.rOffset + n } = body.sent := by
  simp only [HttpBody.sent, HttpBody.remaining_advance, List.length_drop]
  congr 1
  omega

/-- A body of which nothing remains was written. -/
theorem HttpBody.sent_of_remaining_nil {body : HttpBody} (h : body.remaining = []) :
    body.sent = body := by
  simp [HttpBody.sent, h]

/-- A descriptor that accepts everything. -/
def acceptsAll (body : HttpBody) (errnoAgain : Bool) : FdRound :=
  ⟨.accept body.len, .full, errnoAgain⟩

/-- All that remains of a body goes to a descriptor that accepts everything. -/
theorem loop_acceptsAll {n : ℕ} {s : BodyTransfer} {r : FdRound} (hread : r.read = .full)
    (hwrite : r.write = .accept s.body.len) (hnone : s.returned = none)
    (hn : s.body.remaining.length < n) :
    BodyTransfer.loop (List.replicate n r) s =
      ⟨s.body.sent, s.sent ++ s.body.remaining, some .done⟩ := by
  induction n generalizing s with
  | zero => omega
  | succ n ih =>
    rw [List.replicate_succ, BodyTransfer.loop]
    by_cases hremaining : s.body.remaining = []
    · have hround : s.round r = { s with returned := some .done } := by
        rw [BodyTransfer.round, HttpBody.round_of_remaining_nil hremaining]
      rw [hround, HttpBody.sent_of_remaining_nil hremaining, hremaining, List.append_nil]
      simp
    · obtain ⟨offered, hround, hoffered, hfront⟩ :=
        HttpBody.round_full hremaining r.write r.errnoAgain
      have hle : offered.length ≤ s.body.remaining.length := hfront.length_le
      have hlen : s.body.remaining.length ≤ s.body.len := by
        rw [HttpBody.length_remaining]
        omega
      have hmin : min s.body.len offered.length = offered.length := by omega
      have hstep : s.round r =
          ⟨{ s.body with rOffset := s.body.rOffset + offered.length }, s.sent ++ offered,
            none⟩ := by
        rw [BodyTransfer.round, hread, hround, hwrite]
        simp [HttpBody.offer, hmin]
      have hpos := List.length_pos_iff.mpr hoffered
      rw [hstep, if_pos rfl, ih (by exact hwrite) rfl
        (by rw [HttpBody.remaining_advance, List.length_drop]; omega)]
      obtain ⟨rest, hrest⟩ := hfront
      rw [HttpBody.sent_advance hle, HttpBody.remaining_advance, ← hrest, List.drop_left,
        List.append_assoc]

namespace CopyTarget

variable {τ : Type} {writer : CopyTarget τ} {s : CopyCall τ}

/-- A call is over when nothing remains. -/
theorem loop_of_remaining_nil {reads : List ReadOutcome} (hreads : reads ≠ [])
    (hremaining : s.body.remaining = []) :
    writer.loop reads s = some { s with returned := some .done } := by
  obtain ⟨read, reads, rfl⟩ := List.exists_cons_of_ne_nil hreads
  have hle : ¬s.body.rOffset < s.body.len := by
    rw [← HttpBody.remaining_ne_nil_iff]
    simpa using hremaining
  rw [loop, round, if_neg hle]
  rfl

/-- A string or a mapping is copied in one round. -/
theorem loop_of_not_file {n : ℕ} (htype : s.body.type ≠ .bodyFile)
    (hremaining : s.body.remaining ≠ []) (hn : s.body.remaining.length < n) :
    writer.loop (List.replicate n .full) s =
      (writer.append s.target s.body.remaining.length (writer.source s.body)
        s.body.remaining.length).map fun target => ⟨s.body.sent, target, some .done⟩ := by
  have hpos := List.length_pos_iff.mpr hremaining
  obtain ⟨n, rfl⟩ : ∃ k, n = k + 1 + 1 := ⟨n - 2, by omega⟩
  have hround : writer.round s.body s.target .full =
      (writer.append s.target s.body.remaining.length (writer.source s.body)
        s.body.remaining.length).map fun target => ⟨s.body.sent, target, none⟩ := by
    rw [round, if_pos (HttpBody.remaining_ne_nil_iff.mp hremaining), ← HttpBody.length_remaining]
    cases htype' : s.body.type with
    | bodyFile => exact absurd htype' htype
    | bodyNone | bodyString | bodyFilemap => rfl
  rw [List.replicate_succ, loop, hround]
  cases writer.append s.target s.body.remaining.length (writer.source s.body)
    s.body.remaining.length with
  | none => rfl
  | some target =>
    simp only [Option.map_some, Option.bind_some, if_true]
    apply loop_of_remaining_nil
    · simp
    · simp [HttpBody.sent, HttpBody.remaining_advance]

/-- A round of a file that is read in full appends the window. -/
theorem round_file_full (htype : s.body.type = .bodyFile) (hremaining : s.body.remaining ≠ []) :
    writer.round s.body s.target .full =
      (writer.append s.target s.body.remaining.length s.body.window s.body.window.length).map
        fun target => ⟨s.body.addWritten (some s.body.window.length), target, none⟩ := by
  rw [round, if_pos (HttpBody.remaining_ne_nil_iff.mp hremaining), htype]
  simp only [HttpBody.fileFillBuffer_eq, if_pos (HttpBody.length_window_pos hremaining), if_true,
    HttpBody.length_remaining]

/-- The state after a round of a file that is read in full. -/
def afterWindow (s : CopyCall τ) (target : τ) : CopyCall τ :=
  ⟨s.body.addWritten (some s.body.window.length), target, none⟩

/-- A window is copied, and then the rest. -/
theorem loop_window {reads : List ReadOutcome} {target : τ} (htype : s.body.type = .bodyFile)
    (hremaining : s.body.remaining ≠ [])
    (happend : writer.append s.target s.body.remaining.length s.body.window
      s.body.window.length = some target) :
    writer.loop (.full :: reads) s = writer.loop reads (afterWindow s target) := by
  rw [loop, round_file_full htype hremaining, happend]
  rfl

/-- What remains after a window. -/
theorem remaining_afterWindow (s : CopyCall τ) (target : τ) :
    s.body.window ++ (afterWindow s target).body.remaining = s.body.remaining ∧
      (afterWindow s target).body.sent = s.body.sent := by
  have hsplit := s.body.window_append
  have hrest : (afterWindow s target).body.remaining =
      s.body.remaining.drop s.body.window.length := HttpBody.remaining_advance _ _
  have hlength := congrArg List.length hsplit
  rw [List.length_append] at hlength
  exact ⟨by rw [hrest, hsplit], HttpBody.sent_advance (by omega)⟩

/-- A file is copied window by window, where each of them can be appended to what is there. -/
theorem loop_file_full {n : ℕ} {ready : τ → Prop} {joined : τ → Bytes → τ}
    (happend : ∀ target writeLen src, ready target → src <:+: s.body.remaining →
      src.length ≤ writeLen → writer.append target writeLen src src.length =
        some (joined target src))
    (hready : ∀ target src, ready target → src <:+: s.body.remaining → ready (joined target src))
    (hnil : ∀ target, joined target [] = target)
    (hjoined : ∀ target a b, joined (joined target a) b = joined target (a ++ b))
    (htarget : ready s.target) (htype : s.body.type = .bodyFile)
    (hn : s.body.remaining.length < n) :
    writer.loop (List.replicate n .full) s =
      some ⟨s.body.sent, joined s.target s.body.remaining, some .done⟩ := by
  induction n generalizing s with
  | zero => omega
  | succ n ih =>
    rw [List.replicate_succ]
    by_cases hremaining : s.body.remaining = []
    · rw [loop_of_remaining_nil (List.cons_ne_nil _ _) hremaining, hremaining, hnil,
        HttpBody.sent_of_remaining_nil hremaining]
    · have hpos := HttpBody.length_window_pos hremaining
      obtain ⟨hsplit, hsent⟩ := remaining_afterWindow s (joined s.target s.body.window)
      have hlength := congrArg List.length hsplit
      rw [List.length_append] at hlength
      have hpart : s.body.window <:+: s.body.remaining := ⟨[], _, hsplit⟩
      have hsuffix : (afterWindow s (joined s.target s.body.window)).body.remaining <:+:
          s.body.remaining := ⟨s.body.window, [], by simpa using hsplit⟩
      rw [loop_window htype hremaining (happend _ _ _ htarget hpart (by omega)),
        ih (s := afterWindow s (joined s.target s.body.window))
          (fun target writeLen src hr hsrc => happend target writeLen src hr (hsrc.trans hsuffix))
          (fun target src hr hsrc => hready target src hr (hsrc.trans hsuffix))
          (hready _ _ htarget hpart) htype (by omega), hsent, ← hsplit, ← hjoined]
      rfl

end CopyTarget

/-- There is room for a text behind a string, and behind a null one where more bytes remain than
are appended. -/
theorem growStrncat_eq {str : Option Bytes} {writeLen n : ℕ} {src : Bytes} (hzero : 0 ∉ src)
    (hn : src.length ≤ n) (hle : src.length ≤ writeLen)
    (hroom : str ≠ none ∨ src.length < writeLen) :
    growStrncat str writeLen src n = some (some (text str ++ src)) := by
  have hadded : cstr (src.take n) = src := by
    rw [List.take_of_length_le hn]
    exact cstr_of_zero_notMem hzero
  unfold growStrncat
  rw [hadded]
  apply if_pos
  cases str with
  | none =>
    rcases hroom with hne | hlt
    · exact absurd rfl hne
    · simpa [cstr] using hlt
  | some old =>
    simp only [reduceCtorEq, if_false]
    omega

/-- A null string gets no room for the terminator of a text that is as long as what remains. -/
theorem growStrncat_eq_none {src : Bytes} (hzero : 0 ∉ src) :
    growStrncat none src.length src src.length = none := by
  unfold growStrncat
  rw [List.take_length, cstr_of_zero_notMem hzero]
  simp [cstr]

/-- A file without zero bytes is appended to a string window by window. -/
theorem loop_strTarget_file {body : HttpBody} {old : Bytes} {n : ℕ} (hold : 0 ∉ old)
    (htype : body.type = .bodyFile) (hzero : 0 ∉ body.remaining)
    (hn : body.remaining.length < n) :
    strTarget.loop (List.replicate n .full) ⟨body, some old, none⟩ =
      some ⟨body.sent, some (old ++ body.remaining), some .done⟩ := by
  let ready (str : Option Bytes) : Prop := ∃ old, str = some old ∧ 0 ∉ old
  let joined (str : Option Bytes) (src : Bytes) : Option Bytes := str.map (· ++ src)
  have hpart {src : Bytes} (hsrc : src <:+: body.remaining) : 0 ∉ src := fun hmem =>
    hzero (hsrc.subset hmem)
  apply @CopyTarget.loop_file_full _ strTarget ⟨body, some old, none⟩ n ready joined
  · rintro _ writeLen src ⟨old, rfl, hold⟩ hsrc hle
    change growStrncat (some old) writeLen src src.length = _
    rw [growStrncat_eq (hpart hsrc) le_rfl hle (Or.inl (Option.some_ne_none _))]
    simp [text, joined, cstr_of_zero_notMem hold]
  · rintro _ src ⟨old, rfl, hold⟩ hsrc
    refine ⟨old ++ src, rfl, fun hmem => ?_⟩
    rcases List.mem_append.mp hmem with hold' | hsrc'
    · exact hold hold'
    · exact hpart hsrc hsrc'
  · intro str
    cases str <;> simp [joined]
  · intro str a b
    cases str <;> simp [joined]
  · exact ⟨old, rfl, hold⟩
  · exact htype
  · exact hn

/-- `http_body_writeto_str` appends what remains where it holds no zero byte and there is room for
the first piece of it. -/
theorem loop_strTarget {body : HttpBody} {str : Option Bytes} {n : ℕ} (hne : body.remaining ≠ [])
    (hzero : 0 ∉ body.remaining) (hroom : str ≠ none ∨
      (body.type = .bodyFile ∧ HttpBody.bufferLen < body.remaining.length))
    (hn : body.remaining.length < n) :
    strTarget.loop (List.replicate n .full) ⟨body, str, none⟩ =
      some ⟨body.sent, some (text str ++ body.remaining), some .done⟩ := by
  by_cases htype : body.type = .bodyFile
  · obtain ⟨n, rfl⟩ : ∃ k, n = k + 1 := ⟨n - 1, by omega⟩
    let s : CopyCall (Option Bytes) := ⟨body, str, none⟩
    let target := some (text str ++ body.window)
    obtain ⟨hsplit, hsent⟩ := CopyTarget.remaining_afterWindow s target
    have hsplit : body.window ++ (CopyTarget.afterWindow s target).body.remaining =
        body.remaining := hsplit
    have hlength := congrArg List.length hsplit
    rw [List.length_append] at hlength
    have hpos := HttpBody.length_window_pos hne
    rw [← hsplit, List.mem_append, not_or] at hzero
    have hfirst : growStrncat str body.remaining.length body.window body.window.length =
        some target := by
      apply growStrncat_eq hzero.1 le_rfl (by omega)
      rcases hroom with hsome | ⟨_, hlarge⟩
      · exact Or.inl hsome
      · right
        have hshort : body.window.length ≤ HttpBody.bufferLen := List.length_take_le _ _
        omega
    have hloop : strTarget.loop (List.replicate (n + 1) .full) s =
        strTarget.loop (List.replicate n .full) (CopyTarget.afterWindow s target) :=
      CopyTarget.loop_window htype hne hfirst
    have hold : 0 ∉ text str ++ body.window := by
      simp [text, zero_notMem_cstr, hzero.1]
    have hrest := loop_strTarget_file (n := n) hold
      (show (CopyTarget.afterWindow s target).body.type = .bodyFile from htype) hzero.2 (by omega)
    rw [hloop, ← hsplit, ← List.append_assoc]
    exact hrest.trans (by rw [hsent])
  · have hsome : str ≠ none := by
      rcases hroom with hsome | ⟨hfile, _⟩
      · exact hsome
      · exact absurd hfile htype
    rw [CopyTarget.loop_of_not_file htype hne hn]
    change (growStrncat str body.remaining.length body.remaining body.remaining.length).map _ = _
    rw [growStrncat_eq hzero le_rfl le_rfl (Or.inl hsome)]
    rfl

/-- A null string has no room for what remains where it is appended in one piece. -/
theorem loop_strTarget_null {body : HttpBody} {n : ℕ} (hne : body.remaining ≠ [])
    (hzero : 0 ∉ body.remaining) (hone : body.type = .bodyFile →
      body.remaining.length ≤ HttpBody.bufferLen) (hn : body.remaining.length < n) :
    strTarget.loop (List.replicate n .full) ⟨body, none, none⟩ = none := by
  by_cases htype : body.type = .bodyFile
  · obtain ⟨n, rfl⟩ : ∃ k, n = k + 1 := ⟨n - 1, by omega⟩
    have hwindow : body.window = body.remaining := List.take_of_length_le (hone htype)
    rw [List.replicate_succ, CopyTarget.loop,
      CopyTarget.round_file_full (s := ⟨body, none, none⟩) htype hne]
    change ((growStrncat none body.remaining.length body.window body.window.length).map _).bind
      _ = _
    rw [hwindow, growStrncat_eq_none hzero]
    rfl
  · rw [CopyTarget.loop_of_not_file htype hne hn]
    change (growStrncat none body.remaining.length body.remaining body.remaining.length).map _ = _
    rw [growStrncat_eq_none hzero]
    rfl

/-- The rest of a body can be appended to a string in one piece or window by window. -/
def StrFits (body : HttpBody) (str : Option Bytes) : Prop :=
  body.remaining = [] ∨ (0 ∉ body.remaining ∧
    (str ≠ none ∨ (body.type = .bodyFile ∧ HttpBody.bufferLen < body.remaining.length)))

/-- The front of a string or mapping is the same as what remains of it. -/
def FrontIsRest (body : HttpBody) : Prop :=
  body.type = .bodyFile ∨ body.bytes.take body.remaining.length = body.remaining

/-- The three writers write what remains of the body behind what their target held, and leave the
offset at its length. -/
structure WritersAgree (body : HttpBody) (str : Option Bytes) (utstr : Bytes) : Prop where
  /-- `http_body_writeto_fd`, with a descriptor that accepts everything. -/
  fd : ∀ n errnoAgain, body.remaining.length < n →
    httpBodyWritetoFd body (List.replicate n (acceptsAll body errnoAgain)) =
      some ⟨{ body with rOffset := body.len }, body.remaining, some .done⟩
  /-- `http_body_writeto_str`. -/
  str : ∀ n, body.remaining.length < n → ∃ target,
    httpBodyWritetoStr body str (List.replicate n .full) =
      some ⟨{ body with rOffset := body.len }, target, some .done⟩ ∧
    text target = text str ++ body.remaining
  /-- `http_body_writeto_utstring`. -/
  utstring : ∀ n, body.remaining.length < n →
    httpBodyWritetoUtstring body utstr (List.replicate n .full) =
      some ⟨{ body with rOffset := body.len }, utstr ++ body.remaining, some .done⟩

/-- The offset of a body that was written is its length. -/
theorem HttpBody.sent_eq {body : HttpBody} (hoffset : body.rOffset ≤ body.len) :
    body.sent = { body with rOffset := body.len } := by
  rw [HttpBody.sent, HttpBody.length_remaining, Nat.add_sub_cancel' hoffset]

/-- `http_body_writeto_utstring` appends as many bytes as remain, of a file those that remain. -/
theorem loop_utstringTarget {body : HttpBody} {utstr : Bytes} {n : ℕ}
    (hn : body.remaining.length < n) :
    utstringTarget.loop (List.replicate n .full) ⟨body, utstr, none⟩ =
      some ⟨body.sent, utstr ++ if body.type = .bodyFile then body.remaining
        else body.bytes.take body.remaining.length, some .done⟩ := by
  by_cases hremaining : body.remaining = []
  · have hreads : List.replicate n ReadOutcome.full ≠ [] := by
      simp
      omega
    rw [CopyTarget.loop_of_remaining_nil hreads hremaining,
      HttpBody.sent_of_remaining_nil hremaining, hremaining]
    simp
  by_cases htype : body.type = .bodyFile
  · rw [if_pos htype]
    apply @CopyTarget.loop_file_full _ utstringTarget ⟨body, utstr, none⟩ n (fun _ => True)
      (fun utstr src => utstr ++ src)
    · intro target writeLen src _ _ _
      simp [utstringTarget]
    · simp
    · simp
    · simp
    · trivial
    · exact htype
    · exact hn
  · rw [if_neg htype, CopyTarget.loop_of_not_file htype hremaining hn]
    rfl

/-- Where the writers agree the string can take what remains. -/
theorem strFits_of_writersAgree {body : HttpBody} {str : Option Bytes} {utstr : Bytes}
    (hdata : body.HasData) (h : WritersAgree body str utstr) : StrFits body str := by
  have hlarge : body.remaining.length < body.remaining.length + 1 := Nat.lt_succ_self _
  by_contra hfits
  rw [StrFits, not_or, not_and_or, not_or, not_not] at hfits
  obtain ⟨hne, hbad⟩ := hfits
  obtain ⟨target, hcall, htext⟩ := h.str _ hlarge
  have hzero : 0 ∉ body.remaining := by
    intro hmem
    apply zero_notMem_cstr (target.getD [])
    change 0 ∈ text target
    rw [htext]
    exact List.mem_append_right _ hmem
  rcases hbad with hmem | ⟨hnull, hsmall⟩
  · exact hzero hmem
  · obtain rfl : str = none := by simpa using hnull
    rw [httpBodyWritetoStr, CopyTarget.call, if_pos hdata,
      loop_strTarget_null hne hzero _ hlarge] at hcall
    · simp at hcall
    · intro htype
      by_contra hlarge
      exact hsmall ⟨htype, by omega⟩

/-- Where the writers agree the front of a string or mapping is what remains. -/
theorem frontIsRest_of_writersAgree {body : HttpBody} {str : Option Bytes} {utstr : Bytes}
    (hdata : body.HasData) (h : WritersAgree body str utstr) : FrontIsRest body := by
  have hlarge : body.remaining.length < body.remaining.length + 1 := Nat.lt_succ_self _
  by_contra hfront
  rw [FrontIsRest, not_or] at hfront
  have hcall := h.utstring _ hlarge
  rw [httpBodyWritetoUtstring, CopyTarget.call, if_pos hdata, loop_utstringTarget hlarge,
    if_neg hfront.1] at hcall
  simp only [Option.some.injEq, CopyCall.mk.injEq, List.append_cancel_left_eq] at hcall
  exact hfront.2 hcall.2.1

/-- A string that can take what remains gets it. -/
theorem httpBodyWritetoStr_of_fits {body : HttpBody} {str : Option Bytes} {n : ℕ}
    (hdata : body.HasData) (hoffset : body.rOffset ≤ body.len) (hfits : StrFits body str)
    (hn : body.remaining.length < n) :
    ∃ target, httpBodyWritetoStr body str (List.replicate n .full) =
        some ⟨{ body with rOffset := body.len }, target, some .done⟩ ∧
      text target = text str ++ body.remaining := by
  have hsent := HttpBody.sent_eq hoffset
  rw [httpBodyWritetoStr, CopyTarget.call, if_pos hdata]
  by_cases hnil : body.remaining = []
  · have hreads : List.replicate n ReadOutcome.full ≠ [] := by
      simp
      omega
    refine ⟨str, ?_, by simp [hnil]⟩
    rw [CopyTarget.loop_of_remaining_nil hreads hnil, ← hsent, HttpBody.sent_of_remaining_nil hnil]
  · obtain ⟨hzero, hroom⟩ := hfits.resolve_left hnil
    have hnone : 0 ∉ text str ++ body.remaining := by
      simp [text, zero_notMem_cstr, hzero]
    refine ⟨some (text str ++ body.remaining), ?_, cstr_of_zero_notMem hnone⟩
    rw [loop_strTarget hnil hzero hroom hn, hsent]

/-- The three writers agree exactly where a string can take what remains, and what remains of a
string or mapping is the same as its front. -/
theorem writersAgree_iff {body : HttpBody} (hdata : body.HasData)
    (hoffset : body.rOffset ≤ body.len) (str : Option Bytes) (utstr : Bytes) :
    WritersAgree body str utstr ↔ StrFits body str ∧ FrontIsRest body := by
  have hsent := HttpBody.sent_eq hoffset
  constructor
  · intro h
    exact ⟨strFits_of_writersAgree hdata h, frontIsRest_of_writersAgree hdata h⟩
  · rintro ⟨hfits, hfront⟩
    refine ⟨fun n errnoAgain hn => ?_, fun n hn => ?_, fun n hn => ?_⟩
    · rw [httpBodyWritetoFd, if_pos hdata, loop_acceptsAll rfl rfl rfl hn, List.nil_append, hsent]
    · exact httpBodyWritetoStr_of_fits hdata hoffset hfits hn
    · rw [httpBodyWritetoUtstring, CopyTarget.call, if_pos hdata, loop_utstringTarget hn, hsent]
      rcases hfront with htype | hfront
      · rw [if_pos htype]
      · rw [hfront, ite_self]

/-- A string is appended to an empty one from its start on. -/
theorem writersAgree_string :
    WritersAgree (.new .bodyString (some (ascii "ok"))) (some []) (ascii "a") :=
  (writersAgree_iff (Or.inr (Option.some_ne_none _)) (Nat.zero_le _) _ _).mpr
    ⟨Or.inr ⟨by decide, Or.inl (Option.some_ne_none _)⟩, Or.inr (by decide)⟩

/-- The second half of a string is asked for, and `http_body_writeto_utstring` gives the first
half. -/
theorem not_writersAgree_half :
    ¬WritersAgree ⟨.bodyString, 2, some (ascii "left")⟩ (some []) [] := by
  intro h
  have hcall := h.utstring 3 (by decide)
  revert hcall
  decide

end Khttp
