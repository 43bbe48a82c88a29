import Khttp.DataBuffer
import Khttp.Lib.Machine

/-!
# A call of `data_buffer_list_writeto_fd`

The loop sends from the first buffer and unlinks it when nothing in it is pending. It ends when the
list is empty or a write fails, and then the list begins with the buffer that the write was for.
-/

namespace Khttp

open Lib

/-- A call of `data_buffer_list_writeto_fd` under way or at its end. -/
structure BufferDrain where
  /-- The list. -/
  list : DataBufferList
  /-- The variable `result`. -/
  result : ℤ
  /-- What was offered to `write`, and what it did. -/
  writes : List (Bytes × WriteOutcome)
  /-- The call is over. -/
  returned : Bool
  deriving DecidableEq, Repr

/-- The bytes that a `write` takes. -/
def WriteOutcome.taken (offered : Bytes) : WriteOutcome → Bytes
  | .accept n => offered.take n
  | .wouldBlock | .hardError => []

/-- The write fails. -/
def WriteOutcome.Fails : WriteOutcome → Prop
  | .accept _ => False
  | .wouldBlock | .hardError => True

instance (outcome : WriteOutcome) : Decidable outcome.Fails := by
  cases outcome <;> unfold WriteOutcome.Fails <;> infer_instance

namespace BufferDrain

/-- The start of the call. -/
def start (l : DataBufferList) : BufferDrain := ⟨l, 0, [], false⟩

/-- The end of a round that has offered bytes to `write`. -/
def wrote (s : BufferDrain) (offered : Bytes) (l : DataBufferList) (outcome : WriteOutcome) :
    BufferDrain :=
  let writes := s.writes ++ [(offered, outcome)]
  match outcome with
  | .accept n => ⟨l, s.result + min n offered.length, writes, false⟩
  | .wouldBlock | .hardError => ⟨l, -1, writes, true⟩

/-- One round of the loop. The outcome is that of the write, if the round makes one. -/
def step (s : BufferDrain) (outcome : WriteOutcome) : Option BufferDrain :=
  if s.returned then none
  else
    match s.list.drainRound outcome with
    | .drained => some { s with returned := true }
    | .unlinked l => some { s with list := l }
    | .wrote offered l => some (s.wrote offered l outcome)
    | .fault => none

/-- The bytes that the descriptor accepted. -/
def accepted (s : BufferDrain) : Bytes := s.writes.flatMap fun call => call.2.taken call.1

/-- A write failed. -/
def Failed (s : BufferDrain) : Prop := ∃ call ∈ s.writes, call.2.Fails

instance (s : BufferDrain) : Decidable s.Failed :=
  inferInstanceAs (Decidable (∃ call ∈ s.writes, call.2.Fails))

end BufferDrain

/-- A call of `data_buffer_list_writeto_fd` for a list. -/
def bufferDrain (l : DataBufferList) : Machine BufferDrain WriteOutcome :=
  ⟨.start l, BufferDrain.step⟩

/-- The bytes that wait in buffers. -/
def pendingBytes (buffers : List DataBuffer) : Bytes := buffers.flatMap DataBuffer.pending

/-- Some bytes of the first buffer were sent. -/
def advanceFirst (k : ℕ) : List DataBuffer → List DataBuffer
  | [] => []
  | b :: rest => { b with rOffset := b.rOffset + k } :: rest

namespace BufferDrain

/-- The buffers before some place were sent and unlinked, and a part of the next one was sent. -/
structure SentUpTo (buffers before after : List DataBuffer) (k : ℕ) (s : BufferDrain) : Prop where
  /-- The buffers are split in two. -/
  split : buffers = before ++ after
  /-- What the list holds. -/
  list : s.list.Represents (advanceFirst k after)
  /-- Not more than the next buffer was sent. -/
  inside : ∀ b ∈ after.head?, k ≤ b.pending.length
  /-- What was accepted. -/
  accepted : s.accepted = pendingBytes before ++ (pendingBytes after).take k

/-- The call goes on: no write has failed, and the result counts what was accepted. There are so
many buffers and bytes to go. -/
structure GoesOn (buffers : List DataBuffer) (s : BufferDrain) (toGo : ℕ) : Prop where
  /-- Where the loop is. -/
  place : ∃ before after k, s.SentUpTo buffers before after k ∧
    after.length + (pendingBytes after).length = toGo + k
  /-- The call is not over. -/
  running : s.returned = false
  /-- The result. -/
  result : s.result = s.accepted.length
  /-- No write has failed. -/
  succeeded : ¬s.Failed

/-- What holds at the end of a call. -/
structure Ends (buffers : List DataBuffer) (s : BufferDrain) : Prop where
  /-- The call is over. -/
  returned : s.returned = true
  /-- The result is at least zero exactly where no write failed. -/
  nonneg : 0 ≤ s.result ↔ ¬s.Failed
  /-- The result is -1 exactly where a write failed. -/
  minusOne : s.result = -1 ↔ s.Failed
  /-- Without a failure the list is empty and the result is the number of bytes. -/
  drained : ¬s.Failed → s.list.first = none ∧ s.result = (pendingBytes buffers).length ∧
    s.accepted = pendingBytes buffers
  /-- After a failure the list starts with the buffer that the write was for, and what is pending
  is the rest of the bytes. -/
  rest : s.Failed → ∃ before b after k, buffers = before ++ b :: after ∧ k < b.pending.length ∧
    s.list.Represents (advanceFirst k (b :: after)) ∧
    s.accepted ++ pendingBytes (advanceFirst k (b :: after)) = pendingBytes buffers ∧
    ∀ c ∈ advanceFirst k (b :: after), c.rOffset ≤ c.wOffset

/-- What is left pending in a buffer of which a part was sent. -/
theorem pending_advance (b : DataBuffer) (k : ℕ) :
    DataBuffer.pending { b with rOffset := b.rOffset + k } = b.pending.drop k := by
  simp [DataBuffer.pending, List.drop_drop]

/-- What is left pending in buffers of which a part of the first was sent. -/
theorem pendingBytes_advanceFirst {b : DataBuffer} {rest : List DataBuffer} {k : ℕ}
    (hk : k ≤ b.pending.length) :
    pendingBytes (advanceFirst k (b :: rest)) = (pendingBytes (b :: rest)).drop k := by
  simp only [pendingBytes, advanceFirst, List.flatMap_cons, pending_advance]
  rw [List.drop_append_of_le_length hk]

/-- What a write adds to the accepted bytes. -/
theorem accepted_append (writes : List (Bytes × WriteOutcome)) (call : Bytes × WriteOutcome)
    {s t : BufferDrain} (hs : s.writes = writes) (ht : t.writes = writes ++ [call]) :
    t.accepted = s.accepted ++ call.2.taken call.1 := by
  simp [accepted, hs, ht]

variable {buffers : List DataBuffer} {s : BufferDrain} {toGo : ℕ}

/-- When the list is empty everything was sent. -/
theorem SentUpTo.ends {before : List DataBuffer} {k : ℕ} (h : s.SentUpTo buffers before [] k)
    (hresult : s.result = s.accepted.length) (hsucceeded : ¬s.Failed) :
    Ends buffers { s with returned := true } := by
  have haccepted : s.accepted = pendingBytes buffers := by
    have hsplit := h.split
    rw [List.append_nil] at hsplit
    rw [h.accepted, hsplit]
    simp [pendingBytes]
  have hfirst := (h.list.drainRound_nil (.accept 0)).1
  refine ⟨rfl, ?_, ?_, fun _ => ⟨hfirst, ?_, haccepted⟩, fun hfailed => absurd hfailed hsucceeded⟩
  · exact iff_of_true (by rw [hresult]; exact Int.natCast_nonneg _) hsucceeded
  · refine iff_of_false ?_ hsucceeded
    rw [hresult]
    omega
  · rw [hresult, haccepted]

/-- A buffer of which everything was sent is left behind. -/
theorem SentUpTo.unlink {before rest : List DataBuffer} {b : DataBuffer} {k : ℕ}
    {l : DataBufferList} (h : s.SentUpTo buffers before (b :: rest) k) (hk : k = b.pending.length)
    (hl : l.Represents rest) :
    SentUpTo buffers (before ++ [b]) rest 0 { s with list := l } := by
  refine ⟨?_, ?_, ?_, ?_⟩
  · rw [h.split]
    simp
  · cases rest with
    | nil => exact hl
    | cons c rest => exact hl
  · simp
  · change s.accepted = _
    rw [h.accepted, hk]
    simp [pendingBytes]

/-- A write takes some more of the first buffer. -/
theorem SentUpTo.write {before rest : List DataBuffer} {b : DataBuffer} {k n : ℕ}
    {t : BufferDrain} (h : s.SentUpTo buffers before (b :: rest) k)
    (hwrites : t.writes = s.writes ++ [(b.pending.drop k, .accept n)])
    (hlist : t.list.Represents
      (advanceFirst (k + min n (b.pending.drop k).length) (b :: rest))) :
    t.SentUpTo buffers before (b :: rest) (k + min n (b.pending.drop k).length) := by
  have hk : k ≤ b.pending.length := h.inside b rfl
  refine ⟨h.split, hlist, ?_, ?_⟩
  · intro c hc
    obtain rfl : b = c := by simpa using hc
    rw [List.length_drop]
    omega
  · have hdrop : (pendingBytes (b :: rest)).drop k = b.pending.drop k ++ pendingBytes rest := by
      rw [pendingBytes, List.flatMap_cons, List.drop_append_of_le_length hk]
      rfl
    have htake : (b.pending.drop k ++ pendingBytes rest).take (min n (b.pending.drop k).length) =
        (b.pending.drop k).take n := by
      rw [List.take_append_of_le_length (Nat.min_le_right _ _), List.take_eq_take_iff]
      omega
    rw [accepted_append s.writes _ rfl hwrites, h.accepted, List.take_add, hdrop, htake,
      List.append_assoc]
    rfl

/-- A write that fails ends the call with the first buffer as it was. -/
theorem SentUpTo.fail {before rest : List DataBuffer} {b : DataBuffer} {k : ℕ} {offered : Bytes}
    {t : BufferDrain} {outcome : WriteOutcome} (h : s.SentUpTo buffers before (b :: rest) k)
    (hordered : ∀ b ∈ buffers, b.rOffset ≤ b.wOffset) (hk : k < b.pending.length)
    (hfails : outcome.Fails) (ht : t = ⟨s.list, -1, s.writes ++ [(offered, outcome)], true⟩) :
    t.Ends buffers := by
  have hfailed : t.Failed := ⟨(offered, outcome), by simp [ht], hfails⟩
  have htaken : outcome.taken offered = [] := by
    cases outcome with
    | accept n => exact absurd hfails id
    | wouldBlock | hardError => rfl
  have haccepted : t.accepted = s.accepted := by
    rw [accepted_append s.writes (offered, outcome) rfl (by rw [ht]), htaken, List.append_nil]
  refine ⟨by rw [ht], ?_, ?_, fun hnot => absurd hfailed hnot, fun _ => ?_⟩
  · exact iff_of_false (by simp [ht]) (not_not.mpr hfailed)
  · exact iff_of_true (by rw [ht]) hfailed
  · refine ⟨before, b, rest, k, h.split, hk, by rw [ht]; exact h.list, ?_, ?_⟩
    · rw [haccepted, h.accepted, pendingBytes_advanceFirst hk.le, List.append_assoc,
        List.take_append_drop, h.split]
      simp [pendingBytes]
    · intro c hc
      rw [h.split] at hordered
      rcases List.mem_cons.mp hc with rfl | hc
      · rw [DataBuffer.pending, List.length_drop] at hk
        change b.rOffset + k ≤ b.buffer.length
        omega
      · exact hordered c (by simp [hc])

/-- **Step lemma.** A call that goes on has fewer buffers and bytes to go after the next round, or
it ends. -/
theorem GoesOn.step {outcome : WriteOutcome} (h : s.GoesOn buffers toGo)
    (hordered : ∀ b ∈ buffers, b.rOffset ≤ b.wOffset) (houtcome : outcome ≠ .accept 0) :
    ∃ t, s.step outcome = some t ∧
      ((∃ less < toGo, t.GoesOn buffers less) ∨ t.Ends buffers) := by
  obtain ⟨⟨before, after, k, hplace, htoGo⟩, hrunning, hresult, hsucceeded⟩ := h
  unfold BufferDrain.step
  rw [if_neg (by simp [hrunning])]
  cases after with
  | nil =>
    rw [(hplace.list.drainRound_nil outcome).2]
    exact ⟨_, rfl, Or.inr (hplace.ends hresult hsucceeded)⟩
  | cons b rest =>
    have hk : k ≤ b.pending.length := hplace.inside b rfl
    have hpending := pending_advance b k
    have hrepresents : s.list.Represents ({ b with rOffset := b.rOffset + k } :: rest) :=
      hplace.list
    have hlength : (pendingBytes (b :: rest)).length =
        b.pending.length + (pendingBytes rest).length := by
      simp [pendingBytes]
    rw [List.length_cons, hlength] at htoGo
    by_cases hnil : b.pending.drop k = []
    · -- nothing is left of the first buffer
      obtain ⟨l, hround, hl⟩ := hrepresents.drainRound_empty (hpending.trans hnil) outcome
      have hall : k = b.pending.length := by
        rw [List.drop_eq_nil_iff] at hnil
        omega
      rw [hround]
      exact ⟨_, rfl, Or.inl ⟨toGo - 1, by omega, ⟨_, rest, 0, hplace.unlink hall hl, by omega⟩,
        hrunning, hresult, hsucceeded⟩⟩
    · obtain ⟨l, hround, _, haccept, hrefused⟩ :=
        hrepresents.drainRound_pending (by rwa [hpending]) outcome
      have hpositive := List.length_pos_iff.mpr hnil
      rw [hpending] at hround haccept
      rw [hround]
      refine ⟨_, rfl, ?_⟩
      cases outcome with
      | accept n =>
        have hn : n ≠ 0 := by
          rintro rfl
          exact houtcome rfl
        have hlist : l.Represents
            (advanceFirst (k + min n (b.pending.drop k).length) (b :: rest)) := by
          have hl := haccept n rfl
          rwa [Nat.add_assoc] at hl
        let t := s.wrote (b.pending.drop k) l (.accept n)
        have htaken : t.accepted = s.accepted ++ (b.pending.drop k).take n :=
          accepted_append s.writes (b.pending.drop k, .accept n) rfl rfl
        refine Or.inl ⟨toGo - min n (b.pending.drop k).length, by omega,
          ⟨before, b :: rest, _, hplace.write rfl hlist, ?_⟩, rfl, ?_, ?_⟩
        · rw [List.length_cons, hlength]
          rw [List.length_drop]
          omega
        · change s.result + (min n (b.pending.drop k).length : ℕ) = (t.accepted.length : ℤ)
          rw [htaken, hresult, List.length_append, List.length_take]
          omega
        · rintro ⟨call, hmem, hfails⟩
          rcases List.mem_append.mp hmem with hold | hnew
          · exact hsucceeded ⟨call, hold, hfails⟩
          · obtain rfl := List.mem_singleton.mp hnew
            exact hfails
      | wouldBlock | hardError =>
        right
        rw [hrefused (by simp)]
        rw [List.length_drop] at hpositive
        apply hplace.fail hordered (by omega) _ rfl
        trivial

end BufferDrain

/-- **Termination and run lemma.** Wherever `write` takes a nonempty part or fails, a call of
`data_buffer_list_writeto_fd` ends, with all bytes sent or with the rest of them in the list. -/
theorem bufferDrain_ends {l : DataBufferList} {buffers : List DataBuffer}
    (hlist : l.Represents buffers) (hordered : ∀ b ∈ buffers, b.rOffset ≤ b.wOffset)
    (script : ℕ → WriteOutcome) (hscript : ∀ n, script n ≠ .accept 0) :
    ∃ n, BufferDrain.Ends buffers ((bufferDrain l).follow (.start l) script n) := by
  -- a call that has ended has rank zero, one that goes on what it has to go
  let rank (s : BufferDrain) (m : ℕ) : Prop :=
    (s.Ends buffers ∧ m = 0) ∨ ∃ toGo, s.GoesOn buffers toGo ∧ m = toGo + 1
  have hstart : BufferDrain.GoesOn buffers (.start l)
      (buffers.length + (pendingBytes buffers).length) := by
    refine ⟨⟨[], buffers, 0, ⟨rfl, ?_, by simp, rfl⟩, rfl⟩, rfl, rfl, ?_⟩
    · cases buffers with
      | nil => exact hlist
      | cons b rest => exact hlist
    · rintro ⟨call, hmem, _⟩
      simp [BufferDrain.start] at hmem
  apply (bufferDrain l).follow_reaches rank (BufferDrain.Ends buffers) (Or.inr ⟨_, hstart, rfl⟩)
  rintro n m (⟨hends, _⟩ | ⟨toGo, hgoes, rfl⟩)
  · exact Or.inl hends
  · right
    obtain ⟨t, hstep, hnext⟩ := hgoes.step hordered (hscript n)
    have hfollow : (bufferDrain l).follow (.start l) script (n + 1) = t := by
      rw [Machine.follow]
      change (((bufferDrain l).follow (.start l) script n).step (script n)).getD _ = t
      rw [hstep]
      rfl
    rw [hfollow]
    rcases hnext with ⟨less, hless, hnext⟩ | hends
    · exact ⟨less + 1, by omega, Or.inr ⟨less, hnext, rfl⟩⟩
    · exact ⟨0, by omega, Or.inl ⟨hends, rfl⟩⟩

/-- A buffer with two bytes left and a full one. -/
def twoBuffers : DataBufferList :=
  ⟨[⟨⟨ascii "one", 4, 1⟩, some 1⟩, ⟨⟨ascii "two", 4, 0⟩, none⟩], some 0⟩

/-- Everything is sent three bytes at a time. -/
theorem bufferDrain_ends_two : ∃ n,
    BufferDrain.Ends [⟨ascii "one", 4, 1⟩, ⟨ascii "two", 4, 0⟩]
      ((bufferDrain twoBuffers).follow (.start twoBuffers) (fun _ => .accept 3) n) := by
  have hlist : twoBuffers.Represents [⟨ascii "one", 4, 1⟩, ⟨ascii "two", 4, 0⟩] :=
    ⟨[0, 1], .cons rfl (.cons rfl .nil), rfl⟩
  exact bufferDrain_ends hlist (by decide) _ (by simp)

end Khttp
