import Khttp.HttpBody
import Khttp.Lib.Machine

/-!
# Appending to a string body

`http_body_append_str` makes room for the bytes that are to be appended, but the limit it gives to
`strncat` is the length of the whole string. All of the text is copied unless it is longer than
that, so only a text that is appended whole, or to nothing, stays inside the allocation.
-/

namespace Khttp

open Lib

/-- `http_body_append_str`, with the length that it returns. -/
def httpBodyAppendStr (body : HttpBody) (str : Bytes) (strLen : ℕ) : Option (HttpBody × ℕ) :=
  (body.appendStr str strLen).map fun after =>
    (after, if strLen = 0 then 0 else strLen + 1 + (cstr (body.data.getD [])).length - 1)

/-- The arguments of a call of `http_body_append_str`. -/
structure AppendCall where
  /-- The text. -/
  str : Bytes
  /-- How many bytes of it are to be appended. -/
  strLen : ℕ
  deriving DecidableEq, Repr

namespace AppendCall

/-- At least one byte is to be appended, and not more than there are. -/
def Proper (call : AppendCall) : Prop := 1 ≤ call.strLen ∧ call.strLen ≤ strlen call.str

/-- The whole text is to be appended. -/
def Whole (call : AppendCall) : Prop := call.strLen = strlen call.str

/-- The bytes that are to be appended. -/
def text (call : AppendCall) : Bytes := (cstr call.str).take call.strLen

instance (call : AppendCall) : Decidable call.Proper := instDecidableAnd

instance (call : AppendCall) : Decidable call.Whole := Nat.decEq _ _

/-- As many bytes are to be appended as the call says. -/
theorem Proper.length_text {call : AppendCall} (h : call.Proper) :
    call.text.length = call.strLen := by
  have hle : call.strLen ≤ (cstr call.str).length := h.2
  rw [text, List.length_take]
  omega

end AppendCall

/-- A body under a sequence of appends. -/
structure AppendRun where
  /-- The body. -/
  body : HttpBody
  /-- What the calls returned. -/
  returned : List ℕ
  deriving DecidableEq, Repr

/-- One call of `http_body_append_str`. -/
def AppendRun.step (s : AppendRun) (call : AppendCall) : Option AppendRun :=
  (httpBodyAppendStr s.body call.str call.strLen).map fun result =>
    ⟨result.1, s.returned ++ [result.2]⟩

/-- Successive calls of `http_body_append_str` for a body. -/
def bodyAppends (body : HttpBody) : Machine AppendRun AppendCall := ⟨⟨body, []⟩, AppendRun.step⟩

/-- What holds of a body after a sequence of appends. -/
structure AppendedAll (body : HttpBody) (calls : List AppendCall) (s : AppendRun) : Prop where
  /-- It is still a string. -/
  type : s.body.type = .bodyString
  /-- The texts stand behind what it held. -/
  bytes : s.body.bytes = body.bytes ++ calls.flatMap AppendCall.text
  /-- Its length has grown by those of the appends. -/
  len : s.body.len = body.len + (calls.map AppendCall.strLen).sum
  /-- Every call returned the length that it left. -/
  returned : s.returned = calls.inits.tail.map fun done =>
    body.len + (done.map AppendCall.strLen).sum

/-- A sequence of appends stays inside the allocations and does what it is to do. -/
def AppendsRight (body : HttpBody) (calls : List AppendCall) : Prop :=
  ∃ s, (bodyAppends body).run calls = some s ∧ AppendedAll body calls s

variable {body : HttpBody} {call : AppendCall} {calls : List AppendCall} {s t : AppendRun}

/-- The bytes of a string. -/
theorem HttpBody.bytes_string (htype : body.type = .bodyString) :
    body.bytes = cstr (body.data.getD []) := by
  rw [bytes, htype]

/-- An append does what it is to do where it appends the whole text, or appends to nothing. -/
theorem httpBodyAppendStr_eq (htype : body.type = .bodyString) (hcall : call.Proper)
    (hfits : call.Whole ∨ body.bytes = []) :
    httpBodyAppendStr body call.str call.strLen =
      some ({ body with data := some (body.bytes ++ call.text) }, body.len + call.strLen) := by
  obtain ⟨hpos, hle⟩ := hcall
  have hlen : body.len = (cstr (body.data.getD [])).length := by
    rw [HttpBody.len, HttpBody.bytes_string htype]
  have hlimit : (cstr call.str).take (call.strLen + 1 + (cstr (body.data.getD [])).length - 1) =
      call.text := by
    rw [AppendCall.text, List.take_eq_take_iff]
    rcases hfits with hwhole | hnil
    · have hwhole : call.strLen = (cstr call.str).length := hwhole
      omega
    · rw [HttpBody.bytes_string htype] at hnil
      simp [hnil]
  have hroom : (cstr (body.data.getD [])).length + call.text.length <
      call.strLen + 1 + (cstr (body.data.getD [])).length := by
    rw [AppendCall.Proper.length_text ⟨hpos, hle⟩]
    omega
  have hzero : call.strLen ≠ 0 := by omega
  unfold httpBodyAppendStr HttpBody.appendStr
  simp only [htype, ne_eq, not_true_eq_false, if_false, hzero, hlimit, if_pos hroom,
    Option.map_some, HttpBody.bytes_string htype, hlen]
  congr 2
  omega

/-- Any other append writes past the allocation. -/
theorem httpBodyAppendStr_eq_none (htype : body.type = .bodyString) (hcall : call.Proper)
    (hshort : ¬call.Whole) (hne : body.bytes ≠ []) :
    httpBodyAppendStr body call.str call.strLen = none := by
  obtain ⟨hpos, hle⟩ := hcall
  have hless : call.strLen < (cstr call.str).length := lt_of_le_of_ne hle hshort
  have hold : 0 < (cstr (body.data.getD [])).length := by
    rw [← HttpBody.bytes_string htype]
    exact List.length_pos_of_ne_nil hne
  have hover : ¬(cstr (body.data.getD [])).length +
      ((cstr call.str).take (call.strLen + 1 + (cstr (body.data.getD [])).length - 1)).length <
        call.strLen + 1 + (cstr (body.data.getD [])).length := by
    rw [List.length_take]
    omega
  have hzero : call.strLen ≠ 0 := by omega
  unfold httpBodyAppendStr HttpBody.appendStr
  simp only [htype, ne_eq, not_true_eq_false, if_false, hzero, if_neg hover, Option.map_none]

/-- The state after an append of a whole text, or of a text to nothing. -/
theorem step_eq (htype : s.body.type = .bodyString) (hcall : call.Proper)
    (hfits : call.Whole ∨ s.body.bytes = []) :
    s.step call = some ⟨{ s.body with data := some (s.body.bytes ++ call.text) },
      s.returned ++ [s.body.len + call.strLen]⟩ := by
  rw [AppendRun.step, httpBodyAppendStr_eq htype hcall hfits, Option.map_some]

/-- The bytes of a body after such an append. -/
theorem bytes_append (htype : body.type = .bodyString) (call : AppendCall) :
    HttpBody.bytes { body with data := some (body.bytes ++ call.text) } =
      body.bytes ++ call.text := by
  have hzero : 0 ∉ body.bytes ++ call.text := by
    rw [List.mem_append, not_or, HttpBody.bytes_string htype]
    exact ⟨zero_notMem_cstr _, fun hmem => zero_notMem_cstr _ (List.mem_of_mem_take hmem)⟩
  have hstring := @HttpBody.bytes_string
    { body with data := some (body.bytes ++ call.text) } htype
  exact hstring.trans (cstr_of_zero_notMem hzero)

/-- **Step lemma.** A call that returns has appended what it was to append. -/
theorem AppendedAll.step (h : AppendedAll body calls s) (hcall : call.Proper)
    (hstep : s.step call = some t) : AppendedAll body (calls ++ [call]) t := by
  have hfits : call.Whole ∨ s.body.bytes = [] := by
    by_contra hnot
    rw [not_or] at hnot
    simp [AppendRun.step, httpBodyAppendStr_eq_none h.type hcall hnot.1 hnot.2] at hstep
  rw [step_eq h.type hcall hfits] at hstep
  obtain rfl := Option.some.inj hstep
  have hlen : HttpBody.len { s.body with data := some (s.body.bytes ++ call.text) } =
      s.body.len + call.strLen := by
    rw [HttpBody.len, bytes_append h.type, List.length_append, hcall.length_text]
    rfl
  have hsum : s.body.len + call.strLen =
      body.len + ((calls ++ [call]).map AppendCall.strLen).sum := by
    rw [h.len, List.map_append, List.sum_append]
    simp
    omega
  refine ⟨h.type, ?_, hlen.trans hsum, ?_⟩
  · rw [bytes_append h.type, h.bytes, List.flatMap_append, List.append_assoc]
    simp
  · have hinits : (calls ++ [call]).inits.tail = calls.inits.tail ++ [calls ++ [call]] := by
      rw [List.inits_append]
      cases calls <;> simp
    rw [h.returned, hinits, List.map_append, List.map_singleton, hsum]

/-- **Run lemma.** Calls that return have appended what they were to append. -/
theorem appended_run (htype : body.type = .bodyString) (hcalls : ∀ call ∈ calls, call.Proper)
    (hrun : (bodyAppends body).run calls = some s) : AppendedAll body calls s := by
  induction calls using List.reverseRecOn generalizing s with
  | nil =>
    obtain rfl : _ = s := Option.some.inj hrun
    exact ⟨htype, by simp [bodyAppends], by simp [bodyAppends], rfl⟩
  | append_singleton calls call ih =>
    obtain ⟨u, hu, hlast⟩ := ((bodyAppends body).runFrom_append).mp hrun
    obtain ⟨v, hv, hnil⟩ := ((bodyAppends body).runFrom_cons).mp hlast
    obtain rfl : v = s := by simpa using hnil
    exact (ih (fun c hc => hcalls c (List.mem_append_left _ hc)) hu).step
      (hcalls call (by simp)) hv

/-- The calls return exactly where each appends a whole text, the first one unless it appends to
nothing. -/
theorem exists_runFrom_iff (htype : s.body.type = .bodyString)
    (hcalls : ∀ call ∈ calls, call.Proper) :
    (∃ t, (bodyAppends body).runFrom s calls = some t) ↔
      (∀ call ∈ calls.head?, call.Whole ∨ s.body.bytes = []) ∧
        ∀ call ∈ calls.tail, call.Whole := by
  induction calls generalizing s with
  | nil => simp
  | cons call rest ih =>
    have hcall := hcalls call List.mem_cons_self
    have hrest : ∀ c ∈ rest, c.Proper := fun c hc => hcalls c (List.mem_cons_of_mem _ hc)
    by_cases hfits : call.Whole ∨ s.body.bytes = []
    · have hne : HttpBody.bytes { s.body with data := some (s.body.bytes ++ call.text) } ≠ [] := by
        have hpos : 0 < call.text.length := by
          rw [hcall.length_text]
          exact hcall.1
        rw [bytes_append htype]
        exact List.append_ne_nil_of_right_ne_nil _ (List.ne_nil_of_length_pos hpos)
      have hnext := @ih ⟨{ s.body with data := some (s.body.bytes ++ call.text) },
        s.returned ++ [s.body.len + call.strLen]⟩ htype hrest
      simp only [Machine.runFrom, bodyAppends, step_eq htype hcall hfits, Option.bind_some]
      refine hnext.trans ?_
      simp only [hne, or_false, List.head?_cons, Option.mem_def, Option.some.injEq, forall_eq',
        hfits, true_and, List.tail_cons]
      cases rest <;> simp
    · have hnone : s.step call = none := by
        rw [not_or] at hfits
        simp [AppendRun.step, httpBodyAppendStr_eq_none htype hcall hfits.1 hfits.2]
      simp [Machine.runFrom, bodyAppends, hnone, hfits]

/-- A sequence of appends does what it is to do exactly where each call appends a whole text, the
first one unless the body is empty. -/
theorem appendsRight_iff (htype : body.type = .bodyString)
    (hcalls : ∀ call ∈ calls, call.Proper) :
    AppendsRight body calls ↔ (∀ call ∈ calls.head?, call.Whole ∨ body.bytes = []) ∧
      ∀ call ∈ calls.tail, call.Whole := by
  rw [← @exists_runFrom_iff body calls ⟨body, []⟩ htype hcalls]
  constructor
  · rintro ⟨s, hrun, _⟩
    exact ⟨s, hrun⟩
  · rintro ⟨s, hrun⟩
    exact ⟨s, hrun, appended_run htype hcalls hrun⟩

/-- A part of a text is appended to nothing, and then a whole text. -/
theorem appendsRight_page : AppendsRight (.new .bodyString none)
    [⟨ascii "title", 3⟩, ⟨ascii "le", 2⟩] :=
  (appendsRight_iff rfl (by decide)).mpr (by decide)

/-- A part of a text that is appended to something takes more of the text along. -/
theorem not_appendsRight_part :
    ¬AppendsRight (.new .bodyString (some (ascii "a"))) [⟨ascii "bc", 1⟩] := by
  rintro ⟨s, hrun, _⟩
  have hnone :
      (bodyAppends (.new .bodyString (some (ascii "a")))).run [⟨ascii "bc", 1⟩] = none := by
    decide
  simp [hnone] at hrun

end Khttp
