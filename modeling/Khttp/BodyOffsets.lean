import Khttp.BodyWriters
import Khttp.Lib.Machine

/-!
# What the offset of a body says

Over any number of calls of `http_body_writeto_fd` the descriptor has accepted the bytes before the
offset and no others. The writers that copy add the count to the offset before they look at the
result, so that a failed read takes the offset one byte back, below zero at the start of a body.
-/

namespace Khttp

open Lib

/-- A step of a body over successive calls of `http_body_writeto_fd`: a round of the call that is
under way, or the next call. -/
def BodyTransfer.callStep (s : BodyTransfer) : TransferAction → Option BodyTransfer
  | .round write read errnoAgain =>
    if s.returned = none ∧ s.body.HasData then some (s.round ⟨write, read, errnoAgain⟩) else none
  | .call => if s.returned ≠ none then some { s with returned := none } else none

/-- Successive calls of `http_body_writeto_fd` for a body. -/
def bodyCalls (body : HttpBody) : Machine BodyTransfer TransferAction where
  init := ⟨body, [], none⟩
  step := BodyTransfer.callStep

/-- The file is read in full, and `write` would block or accepts a nonempty front part. -/
def FdRound.Resumable (r : FdRound) : Prop :=
  r.read = .full ∧ r.write ≠ .hardError ∧ r.write ≠ .accept 0

instance (r : FdRound) : Decidable r.Resumable := instDecidableAnd

/-- The rounds that an action is made of are such. -/
def TransferAction.Resumable : TransferAction → Prop
  | .round write read errnoAgain => FdRound.Resumable ⟨write, read, errnoAgain⟩
  | .call => True

instance (a : TransferAction) : Decidable a.Resumable := by
  cases a <;> unfold TransferAction.Resumable <;> infer_instance

/-- The state after a number of bytes were accepted. -/
def BodyTransfer.advance (s : BodyTransfer) (k : ℕ) (returned : Option HttpBodyWriteResult) :
    BodyTransfer :=
  ⟨{ s.body with rOffset := s.body.rOffset + k }, s.sent ++ s.body.remaining.take k, returned⟩

@[simp] theorem BodyTransfer.advance_returned (s : BodyTransfer) (k : ℕ)
    (returned : Option HttpBodyWriteResult) : (s.advance k returned).returned = returned := rfl

/-- No bytes were accepted. -/
theorem BodyTransfer.advance_zero (s : BodyTransfer) (returned : Option HttpBodyWriteResult) :
    s.advance 0 returned = { s with returned } := by
  simp [advance]

/-- An offer of a front part of what remains. -/
theorem BodyTransfer.round_offer {s : BodyTransfer} {r : FdRound} {offered : Bytes}
    {last : HttpBodyWriteResult} (hoffered : offered <+: s.body.remaining)
    (hround : s.body.round r.write r.read r.errnoAgain = s.body.offer offered last r.write) :
    s.round r = match r.write with
      | .accept n => s.advance (min n offered.length) (if last = .more then none else some last)
      | .wouldBlock => s.advance 0 (some .blocked)
      | .hardError => s.advance 0 (some .error) := by
  rw [BodyTransfer.round, hround]
  cases r.write with
  | accept n =>
    simp only [HttpBody.offer, advance, Nat.add_sub_cancel_left, HttpBody.take_min_length hoffered]
  | wouldBlock | hardError => simp [HttpBody.offer, advance]

/-- **Step lemma.** Every round moves a front part of what remains to the descriptor and the offset
behind it. -/
theorem BodyTransfer.round_advances (s : BodyTransfer) (r : FdRound) :
    ∃ k returned, k ≤ s.body.remaining.length ∧ s.round r = s.advance k returned := by
  by_cases hremaining : s.body.remaining = []
  · refine ⟨0, some .done, Nat.zero_le _, ?_⟩
    rw [round, HttpBody.round_of_remaining_nil hremaining, advance_zero]
  · rcases HttpBody.round_cases hremaining r.write r.read r.errnoAgain with
      ⟨offered, last, hround, _, hoffered, _⟩ | ⟨hround, _⟩
    · have hle := hoffered.length_le
      rw [round_offer hoffered hround]
      cases r.write with
      | accept n => exact ⟨_, _, by omega, rfl⟩
      | wouldBlock | hardError => exact ⟨0, _, Nat.zero_le _, rfl⟩
    · refine ⟨0, some (HttpBody.failure r.errnoAgain), Nat.zero_le _, ?_⟩
      rw [round, hround, advance_zero]

/-- What a round does when the file is read and `write` does not fail. -/
theorem BodyTransfer.round_resumable (s : BodyTransfer) {r : FdRound} (hr : r.Resumable) :
    (s.body.remaining = [] ∧ s.round r = s.advance 0 (some .done)) ∨
    (s.body.remaining ≠ [] ∧ r.write = .wouldBlock ∧ s.round r = s.advance 0 (some .blocked)) ∨
    ∃ k, 0 < k ∧ k ≤ s.body.remaining.length ∧ s.round r = s.advance k none := by
  obtain ⟨hread, hhard, hzero⟩ := hr
  by_cases hremaining : s.body.remaining = []
  · left
    refine ⟨hremaining, ?_⟩
    rw [round, HttpBody.round_of_remaining_nil hremaining, advance_zero]
  right
  obtain ⟨offered, hround, hne, hoffered⟩ :=
    HttpBody.round_full hremaining r.write r.errnoAgain
  rw [← hread] at hround
  have hle := hoffered.length_le
  have hpos := List.length_pos_iff.mpr hne
  have hstep := round_offer hoffered hround
  cases hwrite : r.write with
  | accept n =>
    right
    have hn : n ≠ 0 := by
      rintro rfl
      exact hzero hwrite
    refine ⟨min n offered.length, by omega, by omega, ?_⟩
    rw [hstep, hwrite]
    simp
  | wouldBlock =>
    left
    refine ⟨hremaining, rfl, ?_⟩
    rw [hstep, hwrite]
  | hardError => exact absurd hwrite hhard

/-- The descriptor has accepted the bytes of a body before the offset. -/
structure BodyTransfer.AtOffset (bytes : Bytes) (s : BodyTransfer) : Prop where
  /-- The body is unchanged. -/
  same : s.body.bytes = bytes
  /-- The offset is inside the body. -/
  inside : s.body.rOffset ≤ bytes.length
  /-- What was accepted. -/
  sent : s.sent = bytes.take s.body.rOffset

/-- Bytes that are accepted keep the offset right. -/
theorem BodyTransfer.AtOffset.advance {bytes : Bytes} {s : BodyTransfer} {k : ℕ}
    (h : s.AtOffset bytes) (hk : k ≤ s.body.remaining.length)
    (returned : Option HttpBodyWriteResult) : (s.advance k returned).AtOffset bytes := by
  have hremaining : s.body.remaining = bytes.drop s.body.rOffset := by
    rw [HttpBody.remaining, h.same]
  have hinside := h.inside
  rw [hremaining, List.length_drop] at hk
  refine ⟨h.same, ?_, ?_⟩
  · change s.body.rOffset + k ≤ bytes.length
    omega
  · change s.sent ++ s.body.remaining.take k = bytes.take (s.body.rOffset + k)
    rw [h.sent, hremaining, List.take_add]

/-- What holds of successive calls of `http_body_writeto_fd` for a body. -/
structure Resumes (body : HttpBody) (actions : List TransferAction) (s : BodyTransfer) : Prop where
  /-- The descriptor has accepted exactly the bytes before the offset. -/
  sent : s.sent = body.bytes.take s.body.rOffset
  /-- The offset is inside the body. -/
  inside : s.body.rOffset ≤ body.len
  /-- A call is blocked only by the last write, with bytes still to send. -/
  blocked : s.returned = some .blocked → s.body.rOffset < body.len ∧
    ∃ errnoAgain, actions.getLast? = some (.round .wouldBlock .full errnoAgain)
  /-- A call is done only when every byte was sent. -/
  done : s.returned = some .done → s.sent = body.bytes
  /-- A call never returns anything else. -/
  only : ∀ result, s.returned = some result → result = .blocked ∨ result = .done
  /-- A call returns, at the latest after a round for each byte and another one. -/
  returns : ∀ rounds : List FdRound, (∀ r ∈ rounds, r.Resumable) →
    body.len - s.body.rOffset < rounds.length →
    (BodyTransfer.loop rounds { s with returned := none }).returned ≠ none

/-- A call under way returns. -/
theorem BodyTransfer.loop_returns {rounds : List FdRound} {s : BodyTransfer}
    (hrounds : ∀ r ∈ rounds, r.Resumable) (hlength : s.body.remaining.length < rounds.length) :
    (loop rounds s).returned ≠ none := by
  induction rounds generalizing s with
  | nil => simp at hlength
  | cons r rounds ih =>
    rw [loop]
    split
    · next hgoes =>
      rcases s.round_resumable (hrounds r List.mem_cons_self) with
        ⟨_, hround⟩ | ⟨_, _, hround⟩ | ⟨k, hpos, hle, hround⟩
      · simp [hround] at hgoes
      · simp [hround] at hgoes
      · rw [hround]
        apply ih fun r hr => hrounds r (List.mem_cons_of_mem _ hr)
        rw [List.length_cons] at hlength
        simp only [advance, HttpBody.remaining_advance, List.length_drop]
        omega
    · assumption

/-- **Step lemma.** A step keeps the offset right, and a call that it ends is blocked by it or
done. -/
theorem BodyTransfer.AtOffset.step {bytes : Bytes} {s t : BodyTransfer} {a : TransferAction}
    (h : s.AtOffset bytes) (ha : a.Resumable) (hstep : s.callStep a = some t) :
    t.AtOffset bytes ∧ ∀ result, t.returned = some result →
      (result = .blocked ∧ t.body.rOffset < bytes.length ∧
        ∃ errnoAgain, a = .round .wouldBlock .full errnoAgain) ∨
      (result = .done ∧ t.sent = bytes) := by
  cases a with
  | call =>
    obtain ⟨_, heq⟩ := Option.ite_none_right_eq_some.mp hstep
    obtain rfl := Option.some.inj heq
    exact ⟨⟨h.same, h.inside, h.sent⟩, by simp⟩
  | round write read errnoAgain =>
    obtain ⟨⟨hnone, _⟩, heq⟩ := Option.ite_none_right_eq_some.mp hstep
    obtain rfl := Option.some.inj heq
    have hlen : s.body.len = bytes.length := congrArg List.length h.same
    rcases s.round_resumable ha with
      ⟨hremaining, hround⟩ | ⟨hremaining, hwrite, hround⟩ | ⟨k, _, hle, hround⟩
    · rw [hround]
      refine ⟨h.advance (Nat.zero_le _) _, fun result hresult => Or.inr ?_⟩
      obtain rfl := Option.some.inj hresult
      have hover := mt HttpBody.remaining_ne_nil_iff.mpr (not_not.mpr hremaining)
      refine ⟨rfl, ?_⟩
      rw [advance_zero, h.sent, List.take_of_length_le (by omega)]
    · rw [hround]
      refine ⟨h.advance (Nat.zero_le _) _, fun result hresult => Or.inl ?_⟩
      obtain rfl := Option.some.inj hresult
      have hinside := HttpBody.remaining_ne_nil_iff.mp hremaining
      obtain rfl : write = .wouldBlock := hwrite
      obtain rfl : read = .full := ha.1
      refine ⟨rfl, ?_, errnoAgain, rfl⟩
      rw [advance_zero, ← hlen]
      exact hinside
    · rw [hround]
      exact ⟨h.advance hle _, by simp⟩

/-- **Run lemma.** Over any number of calls, wherever `write` takes a part or would block, the
offset tells how much of the body was sent. -/
theorem resumes_run {body : HttpBody} {actions : List TransferAction} {s : BodyTransfer}
    (hstart : body.rOffset = 0) (hactions : ∀ a ∈ actions, a.Resumable)
    (hrun : (bodyCalls body).run actions = some s) : Resumes body actions s := by
  have hinit : BodyTransfer.AtOffset body.bytes ⟨body, [], none⟩ :=
    ⟨rfl, by simp [hstart], by simp [hstart]⟩
  have hat (as : List TransferAction) (t : BodyTransfer) (has : ∀ a ∈ as, a.Resumable)
      (hrun : (bodyCalls body).run as = some t) : t.AtOffset body.bytes :=
    (bodyCalls body).invariant (fun _ a => a.Resumable) _
      (fun s a t h ha hstep => (h.step ha hstep).1) hinit
      ((bodyCalls body).meets_of_forall_mem _ has) hrun
  have hs := hat actions s hactions hrun
  have hreturned : ∀ result, s.returned = some result →
      (result = .blocked ∧ s.body.rOffset < body.len ∧
        ∃ errnoAgain, actions.getLast? = some (.round .wouldBlock .full errnoAgain)) ∨
      (result = .done ∧ s.sent = body.bytes) := by
    rcases List.eq_nil_or_concat actions with rfl | ⟨before, a, rfl⟩
    · obtain rfl : _ = s := Option.some.inj hrun
      simp [bodyCalls]
    · rw [List.concat_eq_append] at hrun hactions ⊢
      obtain ⟨u, hu, hstep⟩ := ((bodyCalls body).runFrom_append).mp hrun
      obtain ⟨v, hv, hlast⟩ := ((bodyCalls body).runFrom_cons).mp hstep
      obtain rfl : v = s := by simpa using hlast
      have hbefore := hat before u (fun b hb => hactions b (List.mem_append_left _ hb)) hu
      simpa [HttpBody.len] using (hbefore.step (hactions a (by simp)) hv).2
  refine ⟨hs.sent, hs.inside, ?_, ?_, ?_, ?_⟩
  · intro hblocked
    rcases hreturned _ hblocked with ⟨_, hinside, hlast⟩ | ⟨hdone, _⟩
    · exact ⟨hinside, hlast⟩
    · simp at hdone
  · intro hdone
    rcases hreturned _ hdone with ⟨hblocked, _⟩ | ⟨_, hsent⟩
    · simp at hblocked
    · exact hsent
  · intro result hresult
    exact (hreturned result hresult).imp And.left And.left
  · intro rounds hrounds hlength
    apply BodyTransfer.loop_returns hrounds
    have hlen : s.body.len = body.len := congrArg List.length hs.same
    rw [HttpBody.length_remaining]
    change s.body.len - s.body.rOffset < rounds.length
    omega

/-- A file is sent in three calls, of which two are blocked. -/
theorem resumes_file : ∃ s, (bodyCalls (.new .bodyFile (some (ascii "left")))).run
      [.round (.accept 1) .full false, .round .wouldBlock .full true, .call,
        .round .wouldBlock .full false, .call, .round (.accept 9) .full false,
        .round (.accept 9) .full false] = some s ∧
    Resumes (.new .bodyFile (some (ascii "left")))
      [.round (.accept 1) .full false, .round .wouldBlock .full true, .call,
        .round .wouldBlock .full false, .call, .round (.accept 9) .full false,
        .round (.accept 9) .full false] s :=
  ⟨⟨⟨.bodyFile, 4, some (ascii "left")⟩, ascii "left", some .done⟩, by decide,
    resumes_run rfl (by decide) (by decide)⟩

/-- The offset of a body has moved behind the bytes that were emitted, and no others: the next call
goes on with the first byte that was not. -/
structure OffsetKept (start after : HttpBody) (emitted : Bytes) : Prop where
  /-- The offset has moved by as many bytes as were emitted. -/
  offset : after.rOffset = start.rOffset + emitted.length
  /-- None of the bytes is skipped or repeated. -/
  rest : emitted ++ after.remaining = start.remaining

/-- Whenever one of the writers returns `HBWRITE_ERROR`, the offset has moved by what the call
emitted. -/
structure ErrorKeepsOffset (body : HttpBody) (rounds : List FdRound) (str : Option Bytes)
    (utstr : Bytes) : Prop where
  /-- `http_body_writeto_fd`. -/
  fd : ∀ t, httpBodyWritetoFd body rounds = some t → t.returned = some .error →
    OffsetKept body t.body t.sent
  /-- `http_body_writeto_str`. -/
  str : ∀ t, httpBodyWritetoStr body str (rounds.map FdRound.read) = some t →
    t.returned = some .error →
    ∃ emitted, text t.target = text str ++ emitted ∧ OffsetKept body t.body emitted
  /-- `http_body_writeto_utstring`. -/
  utstring : ∀ t, httpBodyWritetoUtstring body utstr (rounds.map FdRound.read) = some t →
    t.returned = some .error →
    ∃ emitted, t.target = utstr ++ emitted ∧ OffsetKept body t.body emitted

/-- After some full windows of a file, of which more remains, `fread` fails. -/
def ReadFails (body : HttpBody) (reads : List ReadOutcome) : Prop :=
  body.type = .bodyFile ∧ ∃ j, reads[j]? = some .failed ∧ (∀ i < j, reads[i]? = some .full) ∧
    j * HttpBody.bufferLen < body.remaining.length

/-- The loop of `http_body_writeto_fd` keeps the offset behind what it sends. -/
theorem BodyTransfer.loop_keeps (rounds : List FdRound) (s : BodyTransfer) :
    ∃ k returned, k ≤ s.body.remaining.length ∧ loop rounds s = s.advance k returned := by
  induction rounds generalizing s with
  | nil => exact ⟨0, s.returned, Nat.zero_le _, (s.advance_zero _).symm⟩
  | cons r rounds ih =>
    obtain ⟨k, returned, hk, hround⟩ := s.round_advances r
    rw [loop]
    split
    · obtain ⟨l, last, hl, hloop⟩ := ih (s.round r)
      have hremaining : (s.round r).body.remaining = s.body.remaining.drop k := by
        rw [hround]
        exact HttpBody.remaining_advance _ _
      rw [hremaining, List.length_drop] at hl
      refine ⟨k + l, last, by omega, ?_⟩
      rw [hloop, advance, hremaining, hround]
      simp only [advance, Nat.add_assoc, List.append_assoc, List.take_add]
    · exact ⟨k, returned, hk, hround⟩

/-- Every call of `http_body_writeto_fd` keeps the offset behind what it sends. -/
theorem offsetKept_fd {body : HttpBody} {rounds : List FdRound} {t : BodyTransfer}
    (h : httpBodyWritetoFd body rounds = some t) : OffsetKept body t.body t.sent := by
  obtain ⟨_, heq⟩ := Option.ite_none_right_eq_some.mp h
  obtain rfl := Option.some.inj heq
  obtain ⟨k, returned, hk, hloop⟩ := BodyTransfer.loop_keeps rounds ⟨body, [], none⟩
  rw [hloop]
  refine ⟨?_, ?_⟩
  · simp only [BodyTransfer.advance, List.nil_append, List.length_take]
    change k ≤ body.remaining.length at hk
    omega
  · simp only [BodyTransfer.advance, List.nil_append, HttpBody.remaining_advance]
    exact List.take_append_drop _ _

namespace CopyTarget

variable {τ : Type} {writer : CopyTarget τ}

/-- What a round that goes on or fails does: it has copied a string or mapping or a full window of
a file, or the read has failed. -/
theorem round_of_not_done {s t : CopyCall τ} {read : ReadOutcome}
    (h : writer.round s.body s.target read = some t) (hdone : t.returned ≠ some .done) :
    s.body.remaining ≠ [] ∧
      ((s.body.type ≠ .bodyFile ∧ t.returned = none ∧ t.body.type = s.body.type) ∨
      (s.body.type = .bodyFile ∧ read = .full ∧ t.returned = none ∧
        t.body = s.body.addWritten (some s.body.window.length)) ∨
      (s.body.type = .bodyFile ∧ read = .failed ∧ t.returned = some .error)) := by
  by_cases hlt : s.body.rOffset < s.body.len
  · have hremaining := HttpBody.remaining_ne_nil_iff.mpr hlt
    refine ⟨hremaining, ?_⟩
    by_cases htype : s.body.type = .bodyFile
    · right
      cases read with
      | full =>
        rw [round_file_full htype hremaining] at h
        obtain ⟨target, _, rfl⟩ := Option.map_eq_some_iff.mp h
        exact Or.inl ⟨htype, rfl, rfl, rfl⟩
      | failed =>
        rw [round, if_pos hlt, htype] at h
        obtain rfl := Option.some.inj h
        exact Or.inr ⟨htype, rfl, rfl⟩
      | short k =>
        rw [round, if_pos hlt, htype] at h
        simp only [HttpBody.fileFillBuffer_eq] at h
        split at h
        · obtain ⟨target, _, rfl⟩ := Option.map_eq_some_iff.mp h
          simp at hdone
        · obtain rfl := Option.some.inj h
          simp at hdone
    · left
      rw [round, if_pos hlt] at h
      cases htype' : s.body.type with
      | bodyFile => exact absurd htype' htype
      | bodyNone | bodyString | bodyFilemap =>
        rw [htype'] at h
        obtain ⟨target, _, rfl⟩ := Option.map_eq_some_iff.mp h
        exact ⟨by simp, rfl, htype'⟩
  · rw [round, if_neg hlt] at h
    obtain rfl := Option.some.inj h
    simp at hdone

/-- Full windows and then a failed read lead to a failed read after one window more. -/
theorem readFails_cons {body : HttpBody} {reads : List ReadOutcome}
    (hfails : ReadFails (body.addWritten (some body.window.length)) reads) :
    ReadFails body (.full :: reads) := by
  obtain ⟨htype, j, hfailed, hfull, hlt⟩ := hfails
  refine ⟨htype, j + 1, by simpa using hfailed, ?_, ?_⟩
  · intro i hi
    cases i with
    | zero => rfl
    | succ i => simpa using hfull i (by omega)
  · rw [HttpBody.addWritten, HttpBody.remaining_advance, List.length_drop, HttpBody.window,
      List.length_take] at hlt
    rw [Nat.succ_mul]
    omega

/-- A writer that copies returns `HBWRITE_ERROR` only after a failed read. -/
theorem readFails_of_loop {reads : List ReadOutcome} {s t : CopyCall τ}
    (hnone : s.returned = none) (h : writer.loop reads s = some t)
    (herror : t.returned = some .error) : ReadFails s.body reads := by
  induction reads generalizing s with
  | nil =>
    obtain rfl := Option.some.inj h
    simp [hnone] at herror
  | cons read reads ih =>
    obtain ⟨u, hround, hrest⟩ := Option.bind_eq_some_iff.mp h
    split at hrest
    · next hgoes =>
      obtain ⟨_, ⟨htype, _, hsame⟩ | ⟨_, rfl, _, hbody⟩ | ⟨_, _, hreturned⟩⟩ :=
        round_of_not_done hround (by simp [hgoes])
      · have hfails := ih hgoes hrest
        exact absurd (hsame.symm.trans hfails.1) htype
      · apply readFails_cons
        rw [← hbody]
        exact ih hgoes hrest
      · simp [hgoes] at hreturned
    · obtain rfl := Option.some.inj hrest
      obtain ⟨hremaining, ⟨_, hreturned, _⟩ | ⟨_, _, hreturned, _⟩ | ⟨htype, rfl, _⟩⟩ :=
        round_of_not_done hround (by simp [herror])
      · simp [herror] at hreturned
      · simp [herror] at hreturned
      · refine ⟨htype, 0, rfl, by simp, ?_⟩
        rw [Nat.zero_mul]
        exact List.length_pos_iff.mpr hremaining

end CopyTarget

/-- After a failed read `http_body_writeto_utstring` has moved the offset by one byte less than it
emitted, as a `size_t`. -/
theorem loop_utstringTarget_failed {reads : List ReadOutcome} {s : CopyCall Bytes}
    (hfails : ReadFails s.body reads) : ∃ t emitted, utstringTarget.loop reads s = some t ∧
      t.returned = some .error ∧ t.target = s.target ++ emitted ∧
      t.body.rOffset = (s.body.rOffset + emitted.length + (2 ^ 64 - 1)) % 2 ^ 64 := by
  obtain ⟨htype, j, hfailed, hfull, hlt⟩ := hfails
  induction j generalizing s reads with
  | zero =>
    obtain ⟨rest, rfl⟩ : ∃ rest, reads = .failed :: rest := by
      cases reads with
      | nil => simp at hfailed
      | cons read rest => exact ⟨rest, by simpa using hfailed⟩
    have hinside : s.body.rOffset < s.body.len := by
      rw [← HttpBody.remaining_ne_nil_iff, ← List.length_pos_iff]
      omega
    refine ⟨⟨s.body.addWritten none, s.target, some .error⟩, [], ?_, rfl, by simp, rfl⟩
    rw [CopyTarget.loop, CopyTarget.round, if_pos hinside, htype]
    rfl
  | succ j ih =>
    obtain ⟨rest, rfl⟩ : ∃ rest, reads = .full :: rest := by
      have hfirst := hfull 0 (by omega)
      cases reads with
      | nil => simp at hfirst
      | cons read rest => exact ⟨rest, by simpa using hfirst⟩
    have hremaining : s.body.remaining ≠ [] := by
      rw [← List.length_pos_iff]
      omega
    let u := CopyTarget.afterWindow s (s.target ++ s.body.window)
    have hloop : utstringTarget.loop (.full :: rest) s = utstringTarget.loop rest u := by
      apply CopyTarget.loop_window htype hremaining
      simp [utstringTarget]
    have hlength : s.body.window.length = HttpBody.bufferLen := by
      rw [Nat.succ_mul] at hlt
      rw [HttpBody.window, List.length_take]
      omega
    have hrest : j * HttpBody.bufferLen < u.body.remaining.length := by
      have hdrop : u.body.remaining = s.body.remaining.drop s.body.window.length :=
        HttpBody.remaining_advance _ _
      rw [Nat.succ_mul] at hlt
      rw [hdrop, List.length_drop, hlength]
      omega
    obtain ⟨t, emitted, ht, hreturned, htarget, hoffset⟩ := ih (s := u) htype
      (by simpa using hfailed) (fun i hi => by simpa using hfull (i + 1) (by omega)) hrest
    refine ⟨t, s.body.window ++ emitted, hloop.trans ht, hreturned, ?_, ?_⟩
    · rw [htarget, ← List.append_assoc]
      rfl
    · rw [hoffset, List.length_append, ← Nat.add_assoc]
      rfl

/-- The offset is right after every error exactly where no read of a file fails. -/
theorem errorKeepsOffset_iff (body : HttpBody) (rounds : List FdRound) (str : Option Bytes)
    (utstr : Bytes) : ErrorKeepsOffset body rounds str utstr ↔
      ¬ReadFails body (rounds.map FdRound.read) := by
  constructor
  · intro h hfails
    obtain ⟨t, emitted, hloop, hreturned, htarget, hoffset⟩ :=
      loop_utstringTarget_failed (s := ⟨body, utstr, none⟩) hfails
    have hdata : body.HasData := by
      right
      intro hnull
      obtain ⟨htype, j, _, _, hlt⟩ := hfails
      have hempty : body.remaining = [] := by
        simp [HttpBody.remaining, HttpBody.bytes, htype, hnull]
      simp [hempty] at hlt
    have hcall : httpBodyWritetoUtstring body utstr (rounds.map FdRound.read) = some t :=
      (if_pos hdata).trans hloop
    obtain ⟨bytes, hsame, hkept⟩ := h.utstring t hcall hreturned
    obtain rfl : emitted = bytes := List.append_cancel_left (htarget.symm.trans hsame)
    have hright := hkept.offset
    rw [hoffset] at hright
    change (body.rOffset + emitted.length + (2 ^ 64 - 1)) % 2 ^ 64 = _ at hright
    omega
  · intro hreads
    refine ⟨fun t ht _ => offsetKept_fd ht, fun t ht herror => ?_, fun t ht herror => ?_⟩
    · obtain ⟨_, hloop⟩ := Option.ite_none_right_eq_some.mp ht
      exact absurd (CopyTarget.readFails_of_loop rfl hloop herror) hreads
    · obtain ⟨_, hloop⟩ := Option.ite_none_right_eq_some.mp ht
      exact absurd (CopyTarget.readFails_of_loop rfl hloop herror) hreads

/-- The first read of a file fails, and the offset goes below zero. -/
theorem not_errorKeepsOffset_first :
    ¬ErrorKeepsOffset (.new .bodyFile (some (ascii "left"))) [⟨.wouldBlock, .failed, false⟩]
      (some []) [] := by
  intro h
  have hcall : httpBodyWritetoUtstring (.new .bodyFile (some (ascii "left"))) [] [.failed] =
      some ⟨⟨.bodyFile, 2 ^ 64 - 1, some (ascii "left")⟩, [], some .error⟩ := by
    decide
  obtain ⟨emitted, htarget, hkept⟩ := h.utstring _ hcall rfl
  obtain rfl : emitted = [] := by simpa using htarget.symm
  have hoffset := hkept.offset
  revert hoffset
  decide

end Khttp
