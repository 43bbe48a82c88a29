import Khttp.DataBuffer

/-!
# Message bodies

`http-body.c`: a body is nothing, a string, a mapped file or an open file. A
mapped file and a string are offered to `write` whole, an open file through a
window of 16 KiB that `fread` fills first.
-/

namespace Khttp

/-- `http_body_type`. -/
inductive HttpBodyType where
  | bodyNone
  | bodyString
  | bodyFilemap
  | bodyFile
  deriving DecidableEq, Repr

/-- `http_body_write_result`. -/
inductive HttpBodyWriteResult where
  | done
  | more
  | blocked
  | error
  deriving DecidableEq, Repr

/-- `http_body`. -/
structure HttpBody where
  /-- Which member of the union is in use. -/
  type : HttpBodyType
  /-- The bytes already sent. -/
  rOffset : ℕ
  /-- The pointer of the union, `none` when null: the buffer of the string, the
  mapping, or the contents of the open file. -/
  data : Option Bytes
  deriving DecidableEq, Repr

/-- What `fread` does with a request for some bytes of the file. -/
inductive ReadOutcome where
  /-- It delivers all of them. -/
  | full
  /-- It reaches the end of the file after this many. -/
  | short (k : ℕ)
  /-- It fails. -/
  | failed
  deriving DecidableEq, Repr

namespace HttpBody

/-- `http_body_new`. -/
def new (type : HttpBodyType) (dataptr : Option Bytes) : HttpBody := ⟨type, 0, dataptr⟩

/-- `http_body_clear`: the object that the pointer leads to is freed, the pointer stays. -/
def clear (body : HttpBody) : HttpBody := { body with rOffset := 0 }

/-- `http_body_set_type`. -/
def setType (body : HttpBody) (newtype : HttpBodyType) : HttpBody :=
  { body.clear with type := newtype }

/-- `http_body_append_str`. It has no result where an assertion fails or `strncat`
writes past the allocation of `str_len + 1` new bytes. -/
def appendStr (body : HttpBody) (str : Bytes) (strLen : ℕ) : Option HttpBody :=
  if body.type ≠ .bodyString then none
  else if strLen = 0 then some body
  else
    let old := cstr (body.data.getD [])
    let newLen := strLen + 1 + old.length
    let added := (cstr str).take (newLen - 1)
    if old.length + added.length < newLen then some { body with data := some (old ++ added) }
    else none

/-- The bytes of a body: what its pointer leads to, a string up to its terminator. -/
def bytes (body : HttpBody) : Bytes :=
  match body.type with
  | .bodyNone => []
  | .bodyString => cstr (body.data.getD [])
  | .bodyFilemap | .bodyFile => body.data.getD []

/-- `http_body_len`. -/
def len (body : HttpBody) : ℕ := body.bytes.length

/-- The assertion at the start of `http_body_writeto_fd`. -/
def HasData (body : HttpBody) : Prop := body.type = .bodyNone ∨ body.data ≠ none

instance (body : HttpBody) : Decidable body.HasData := instDecidableOr

/-- `buffer_len` of `http_body_writeto_fd`. -/
def bufferLen : ℕ := 16 * 1024

/-- One round of the loop of `http_body_writeto_fd`. -/
inductive Round where
  /-- The loop ends before any system call on the descriptor. -/
  | returned
  /-- The bytes were offered to `write`; the loop ends with the result unless it is `more`. -/
  | wrote (offered : Bytes) (body : HttpBody) (result : HttpBodyWriteResult)
  /-- No bytes were offered because `fread` delivered none. -/
  | noRead (result : HttpBodyWriteResult)
  deriving DecidableEq, Repr

/-- The result of a round whose `written` is negative or whose read failed. -/
def failure (errnoAgain : Bool) : HttpBodyWriteResult := if errnoAgain then .blocked else .error

/-- A round that offers bytes: `last` is the value of `result` when the whole or a
part of them is accepted. -/
def offer (body : HttpBody) (offered : Bytes) (last : HttpBodyWriteResult) :
    WriteOutcome → Round
  | .accept n =>
    .wrote offered { body with rOffset := body.rOffset + min n offered.length } last
  | .wouldBlock => .wrote offered body .blocked
  | .hardError => .wrote offered body .error

/-- One round of the loop of `http_body_writeto_fd`. `errnoAgain` says what `errno`
holds where no call of this round sets it. -/
def round (body : HttpBody) (write : WriteOutcome) (read : ReadOutcome) (errnoAgain : Bool) :
    Round :=
  if body.rOffset < body.len then
    let remaining := body.bytes.drop body.rOffset
    match body.type with
    | .bodyNone => .returned
    | .bodyString | .bodyFilemap => body.offer remaining .more write
    | .bodyFile =>
      let window := remaining.take bufferLen
      match read with
      | .full => body.offer window .more write
      | .failed => .noRead (failure errnoAgain)
      | .short k =>
        -- the end of the file: what was read is offered once and the body is done
        if 0 < k then body.offer (window.take k) .done write else .noRead (failure errnoAgain)
  else .returned

/-- The bytes of a body that wait to be sent. -/
def remaining (body : HttpBody) : Bytes := body.bytes.drop body.rOffset

/-- Only a string is appended to, and it stays one. -/
theorem appendStr_type {body body' : HttpBody} {str : Bytes} {strLen : ℕ}
    (h : body.appendStr str strLen = some body') : body'.type = .bodyString := by
  unfold appendStr at h
  split at h
  · simp at h
  · next htype =>
    have htype : body.type = .bodyString := by simpa using htype
    split at h
    · obtain rfl := Option.some.inj h
      exact htype
    · obtain ⟨_, h⟩ := Option.ite_none_right_eq_some.mp h
      obtain rfl := Option.some.inj h
      exact htype

/-- A body of type `BODY_NONE` has no bytes. -/
theorem remaining_of_none {body : HttpBody} (h : body.type = .bodyNone) :
    body.remaining = [] := by
  simp [remaining, bytes, h]

/-- Moving the read offset of a body leaves its bytes. -/
theorem remaining_advance (body : HttpBody) (n : ℕ) :
    HttpBody.remaining { body with rOffset := body.rOffset + n } = body.remaining.drop n := by
  simp [remaining, bytes, List.drop_drop]

/-- The loop ends without a call exactly when nothing remains. -/
theorem round_of_remaining_nil {body : HttpBody} (h : body.remaining = [])
    (write : WriteOutcome) (read : ReadOutcome) (errnoAgain : Bool) :
    body.round write read errnoAgain = .returned := by
  have hle : ¬body.rOffset < body.len := by
    simpa [remaining, len] using h
  rw [round, if_neg hle]

/-- With something left to send, a round either offers a nonempty front part of it
to `write` or has no bytes from `fread`. -/
theorem round_cases {body : HttpBody} (h : body.remaining ≠ []) (write : WriteOutcome)
    (read : ReadOutcome) (errnoAgain : Bool) :
    (∃ offered last, body.round write read errnoAgain = body.offer offered last write ∧
      offered ≠ [] ∧ offered <+: body.remaining ∧ (last = .more ∨ last = .done) ∧
      (last = .done → ∃ k, read = .short k)) ∨
    (body.round write read errnoAgain = .noRead (failure errnoAgain) ∧ read ≠ .full) := by
  have hlt : body.rOffset < body.len := by
    by_contra hle
    apply h
    simpa [remaining, len] using hle
  have hnone : body.type ≠ .bodyNone := fun htype => h (remaining_of_none htype)
  have hwindow : body.remaining.take bufferLen ≠ [] := by
    simpa [List.take_eq_nil_iff, bufferLen] using h
  rw [round, if_pos hlt]
  cases htype : body.type with
  | bodyNone => exact absurd htype hnone
  | bodyString | bodyFilemap =>
    exact Or.inl ⟨body.remaining, .more, rfl, h, List.prefix_rfl, Or.inl rfl, by simp⟩
  | bodyFile =>
    cases read with
    | full =>
      exact Or.inl ⟨_, .more, rfl, hwindow, List.take_prefix _ _, Or.inl rfl, by simp⟩
    | failed => exact Or.inr ⟨rfl, by simp⟩
    | short k =>
      by_cases hk : 0 < k
      · refine Or.inl ⟨(body.remaining.take bufferLen).take k, .done, if_pos hk, ?_, ?_,
          Or.inr rfl, fun _ => ⟨k, rfl⟩⟩
        · intro hnil
          rcases List.take_eq_nil_iff.mp hnil with hzero | hnil
          · omega
          · exact hwindow hnil
        · exact (List.take_prefix _ _).trans (List.take_prefix _ _)
      · exact Or.inr ⟨if_neg hk, by simp⟩

/-- Unless `fread` delivers less than it was asked for, the loop goes on after a round that
offers bytes. -/
theorem round_cases_more {body : HttpBody} (h : body.remaining ≠ []) (write : WriteOutcome)
    {read : ReadOutcome} (hread : ∀ k, read ≠ .short k) (errnoAgain : Bool) :
    (∃ offered, body.round write read errnoAgain = body.offer offered .more write ∧
      offered ≠ [] ∧ offered <+: body.remaining) ∨
    (body.round write read errnoAgain = .noRead (failure errnoAgain) ∧ read ≠ .full) := by
  refine (round_cases h write read errnoAgain).imp_left ?_
  rintro ⟨offered, last, hround, hne, hoffered, hlast, hshort⟩
  rcases hlast with rfl | rfl
  · exact ⟨offered, hround, hne, hoffered⟩
  · obtain ⟨k, hk⟩ := hshort rfl
    exact absurd hk (hread k)

/-- Where `fread` delivers what it was asked for, a round offers bytes and the loop goes on. -/
theorem round_full {body : HttpBody} (h : body.remaining ≠ []) (write : WriteOutcome)
    (errnoAgain : Bool) :
    ∃ offered, body.round write .full errnoAgain = body.offer offered .more write ∧
      offered ≠ [] ∧ offered <+: body.remaining :=
  (round_cases_more h write (by simp) errnoAgain).resolve_right fun hnone => hnone.2 rfl

/-- A front part of a text is cut off at the same place as the text. -/
theorem take_min_length {front whole : Bytes} (h : front <+: whole) (n : ℕ) :
    front.take (min n front.length) = whole.take (min n front.length) := by
  obtain ⟨rest, rfl⟩ := h
  rw [List.take_append_of_le_length (Nat.min_le_right _ _)]

end HttpBody

end Khttp
