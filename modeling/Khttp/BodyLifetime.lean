import Khttp.HttpBody
import Khttp.Lib.Machine

/-!
# Who releases what a body holds

`http_body_clear` releases what the pointer of a body leads to and keeps the pointer. As long as
bodies are cleared only while they hold nothing, and given a resource only then, every resource is
released once by `http_body_delete`.
-/

namespace Khttp

open Lib

/-- A string, file map or `FILE` that was put into a body. -/
structure BodyHandle where
  /-- The type of the body that it was stored under. -/
  stored : HttpBodyType
  /-- What it leads to. -/
  contents : Bytes
  /-- The types under which it was released, each with its own function. -/
  released : List HttpBodyType
  deriving DecidableEq, Repr

/-- A body and all that was ever put into it. -/
structure BodyOwner where
  /-- Which member of the union is in use. -/
  type : HttpBodyType
  /-- The bytes already sent. -/
  rOffset : ℕ
  /-- The pointer of the union, `none` when null. -/
  data : Option ℕ
  /-- Every handle that was put into the body. -/
  handles : List BodyHandle
  /-- A handle was used that had been released or stored under another type. -/
  misused : Bool
  /-- The last operation was `http_body_clear` or `http_body_set_type`. -/
  emptied : Bool
  /-- The body was deleted. -/
  deleted : Bool
  deriving DecidableEq, Repr

/-- What is done with a body. -/
inductive BodyAction where
  /-- `http_body_set_type`. -/
  | setType (newtype : HttpBodyType)
  /-- `http_body_append_str`. -/
  | append (str : Bytes) (strLen : ℕ)
  /-- The caller assigns a fresh resource. -/
  | assign (contents : Bytes)
  /-- The caller assigns what `str_replace` makes of the string, which frees the old one. -/
  | replace (contents : Bytes)
  /-- `http_body_clear`. -/
  | clear
  /-- `http_body_delete`. -/
  | delete
  deriving DecidableEq, Repr

namespace BodyOwner

/-- The handle that the pointer leads to. -/
def held (s : BodyOwner) : Option BodyHandle := s.data.bind (s.handles[·]?)

/-- The body, where handles are what they lead to. -/
def toBody (s : BodyOwner) : HttpBody := ⟨s.type, s.rOffset, s.held.map BodyHandle.contents⟩

/-- The handle of the pointer can be used as what the type says. -/
def usable (s : BodyOwner) : Bool :=
  match s.held with
  | none => false
  | some handle => handle.released = [] && handle.stored = s.type

/-- A fresh resource is put into the body. -/
def store (s : BodyOwner) (contents : Bytes) : BodyOwner :=
  { s with
    data := some s.handles.length
    handles := s.handles ++ [⟨s.type, contents, []⟩] }

/-- The handle of the pointer is released as what the type says. -/
def release (s : BodyOwner) : BodyOwner :=
  if s.type = .bodyNone then s
  else
    match s.data with
    | none => s
    | some i =>
      { s with handles := s.handles.modify i fun handle =>
          { handle with released := handle.released ++ [s.type] } }

/-- `http_body_new`. -/
def new (type : HttpBodyType) (dataptr : Option Bytes) : BodyOwner :=
  let empty : BodyOwner := ⟨type, 0, none, [], false, false, false⟩
  match type, dataptr with
  | .bodyNone, _ | _, none => empty
  | _, some contents => empty.store contents

/-- `http_body_clear`. -/
def clear (s : BodyOwner) : BodyOwner := { s.release with rOffset := 0, emptied := true }

/-- `http_body_set_type`. -/
def setType (s : BodyOwner) (newtype : HttpBodyType) : BodyOwner := { s.clear with type := newtype }

/-- `http_body_append_str`. A new string is allocated, an old one measured and reallocated. -/
def append (s : BodyOwner) (str : Bytes) (strLen : ℕ) : Option BodyOwner :=
  (s.toBody.appendStr str strLen).map fun body =>
    if strLen = 0 then { s with emptied := false }
    else
      match s.data with
      | none => { s.store (body.data.getD []) with emptied := false }
      | some i =>
        { s with
          handles := s.handles.modify i fun handle =>
            { handle with contents := body.data.getD [] }
          misused := s.misused || !s.usable
          emptied := false }

/-- The caller assigns a fresh resource to the member of the type. -/
def assign (s : BodyOwner) (contents : Bytes) : BodyOwner :=
  { s.store contents with emptied := false }

/-- `str_replace` measures and frees the string, and the caller assigns what it returns. -/
def replace (s : BodyOwner) (contents : Bytes) : BodyOwner :=
  { s.release.store contents with emptied := false, misused := s.misused || !s.usable }

/-- `http_body_len`. It has no result where it would use a released handle. -/
def len (s : BodyOwner) : Option ℕ :=
  if s.type = .bodyNone ∨ s.data = none then some 0
  else if s.usable then some s.toBody.len
  else none

/-- One operation on a body. -/
def step (s : BodyOwner) (a : BodyAction) : Option BodyOwner :=
  if s.deleted then none
  else
    match a with
    | .setType newtype => some (s.setType newtype)
    | .append str strLen => s.append str strLen
    | .assign contents => some (s.assign contents)
    | .replace contents =>
      if s.type = .bodyString ∧ s.data ≠ none then some (s.replace contents) else none
    | .clear => some s.clear
    | .delete => some { s.clear with emptied := false, deleted := true }

end BodyOwner

/-- Operations on a body from `http_body_new`. -/
def bodyLife (type : HttpBodyType) (dataptr : Option Bytes) : Machine BodyOwner BodyAction where
  init := .new type dataptr
  step := BodyOwner.step

namespace BodyOwner

variable {s t : BodyOwner}

/-- What a release does. -/
theorem release_cases (s : BodyOwner) :
    ((s.type = .bodyNone ∨ s.data = none) ∧ s.release = s) ∨
    ∃ i, s.type ≠ .bodyNone ∧ s.data = some i ∧
      s.release = { s with handles := s.handles.modify i fun handle =>
        { handle with released := handle.released ++ [s.type] } } := by
  unfold release
  by_cases htype : s.type = .bodyNone
  · exact Or.inl ⟨Or.inl htype, if_pos htype⟩
  · rw [if_neg htype]
    cases hdata : s.data with
    | none => exact Or.inl ⟨Or.inr rfl, rfl⟩
    | some i => exact Or.inr ⟨i, htype, rfl, rfl⟩

/-- A release changes handles only. -/
theorem release_eq (s : BodyOwner) : s.release = { s with handles := s.release.handles } := by
  rcases s.release_cases with ⟨_, hsame⟩ | ⟨i, _, _, hrelease⟩
  · rw [hsame]
  · rw [hrelease]

@[simp] theorem release_type (s : BodyOwner) : s.release.type = s.type := by rw [release_eq]

@[simp] theorem release_data (s : BodyOwner) : s.release.data = s.data := by rw [release_eq]

@[simp] theorem release_deleted (s : BodyOwner) : s.release.deleted = s.deleted := by
  rw [release_eq]

/-- Clearing does to the body what the model without handles says. -/
theorem toBody_clear (s : BodyOwner) : s.clear.toBody = s.toBody.clear := by
  have hheld : s.release.held.map BodyHandle.contents = s.held.map BodyHandle.contents := by
    rcases s.release_cases with ⟨_, hsame⟩ | ⟨i, _, hdata, hrelease⟩
    · rw [hsame]
    · rw [hrelease]
      simp only [held, hdata, Option.bind_some, List.getElem?_modify_eq]
      cases s.handles[i]? <;> rfl
  change HttpBody.mk s.release.type 0 (s.release.held.map BodyHandle.contents) = _
  rw [hheld, release_type]
  rfl

/-- Setting the type does to the body what the model without handles says. -/
theorem toBody_setType (s : BodyOwner) (newtype : HttpBodyType) :
    (s.setType newtype).toBody = s.toBody.setType newtype := by
  have hclear := s.toBody_clear
  simp only [toBody, HttpBody.clear, HttpBody.mk.injEq] at hclear
  change HttpBody.mk newtype 0 (s.clear.held.map BodyHandle.contents) = _
  rw [hclear.2.2]
  rfl

/-- What a handle goes through in a release. -/
theorem handle_release {i : ℕ} {handle : BodyHandle} (hi : s.handles[i]? = some handle) :
    ∃ after, s.release.handles[i]? = some after ∧ after.stored = handle.stored ∧
      (.bodyNone ∉ handle.released → .bodyNone ∉ after.released) ∧
      (s.data ≠ some i → after.released = handle.released) := by
  rcases s.release_cases with ⟨_, hsame⟩ | ⟨j, htype, hdata, hrelease⟩
  · exact ⟨handle, by rw [hsame, hi], rfl, id, fun _ => rfl⟩
  · rw [hrelease]
    by_cases hij : j = i
    · subst hij
      refine ⟨{ handle with released := handle.released ++ [s.type] }, ?_, rfl, ?_, ?_⟩
      · simp [hi]
      · intro hfree hmem
        rcases List.mem_append.mp hmem with hold | hnew
        · exact hfree hold
        · exact htype (List.mem_singleton.mp hnew).symm
      · exact fun hne => absurd hdata hne
    · refine ⟨handle, ?_, rfl, id, fun _ => rfl⟩
      rw [List.getElem?_modify_ne _ _ hij]
      exact hi

/-- What a handle goes through when a fresh one is stored. -/
theorem handle_store {i : ℕ} {handle : BodyHandle} (hi : s.handles[i]? = some handle)
    (contents : Bytes) : (s.store contents).handles[i]? = some handle ∧
      (s.store contents).data ≠ some i := by
  have hlt := (List.getElem?_eq_some_iff.mp hi).1
  refine ⟨?_, ?_⟩
  · rw [store, List.getElem?_append_left hlt]
    exact hi
  · intro heq
    have hlast : s.handles.length = i := Option.some.inj heq
    omega

/-- What an appended text does: nothing, or it makes a fresh string or changes the one that is
there. -/
theorem append_cases {str : Bytes} {strLen : ℕ} (h : s.append str strLen = some t) :
    s.type = .bodyString ∧
      (t = { s with emptied := false } ∨
      (s.data = none ∧ ∃ contents, t = { s.store contents with emptied := false }) ∨
      ∃ i contents, s.data = some i ∧
        t = { s with
          emptied := false
          handles := s.handles.modify i fun handle => { handle with contents := contents }
          misused := s.misused || !s.usable }) := by
  obtain ⟨body, hbody, rfl⟩ := Option.map_eq_some_iff.mp h
  have htype : s.type = .bodyString := by
    by_contra hne
    simp [HttpBody.appendStr, toBody, hne] at hbody
  refine ⟨htype, ?_⟩
  dsimp only
  split
  · exact Or.inl rfl
  · right
    cases hdata : s.data with
    | none => exact Or.inl ⟨rfl, _, rfl⟩
    | some i => exact Or.inr ⟨i, _, rfl, rfl⟩

/-- **Step lemma.** What a handle goes through in one operation: a handle that the pointer does not
lead to is never released. -/
theorem handle_step {a : BodyAction} {i : ℕ} {handle : BodyHandle} (h : s.step a = some t)
    (hi : s.handles[i]? = some handle) :
    ∃ after, t.handles[i]? = some after ∧ after.stored = handle.stored ∧
      (.bodyNone ∉ handle.released → .bodyNone ∉ after.released) ∧
      (s.data ≠ some i → after.released = handle.released ∧ t.data ≠ some i) := by
  obtain ⟨_, h⟩ := Option.ite_none_left_eq_some.mp h
  obtain ⟨after, hafter, hstored, hfree, hother⟩ := handle_release hi
  cases a with
  | setType newtype | clear | delete =>
    obtain rfl := Option.some.inj h
    exact ⟨after, hafter, hstored, hfree, fun hne => ⟨hother hne, s.release_data.trans_ne hne⟩⟩
  | assign contents =>
    obtain rfl := Option.some.inj h
    obtain ⟨hsame, hne⟩ := handle_store hi contents
    exact ⟨handle, hsame, rfl, id, fun _ => ⟨rfl, hne⟩⟩
  | replace contents =>
    obtain ⟨_, h⟩ := Option.ite_none_right_eq_some.mp h
    obtain rfl := Option.some.inj h
    obtain ⟨hsame, hne⟩ := handle_store hafter contents
    exact ⟨after, hsame, hstored, hfree, fun hdata => ⟨hother hdata, hne⟩⟩
  | append str strLen =>
    obtain ⟨_, rfl | ⟨_, contents, rfl⟩ | ⟨j, contents, hj, rfl⟩⟩ := append_cases h
    · exact ⟨handle, hi, rfl, id, fun hne => ⟨rfl, hne⟩⟩
    · obtain ⟨hsame, hne⟩ := handle_store hi contents
      exact ⟨handle, hsame, rfl, id, fun _ => ⟨rfl, hne⟩⟩
    · by_cases hij : j = i
      · subst hij
        refine ⟨{ handle with contents }, by simp [hi], rfl, id, fun hne => absurd hj hne⟩
      · refine ⟨handle, ?_, rfl, id, fun hne => ⟨rfl, hne⟩⟩
        rw [List.getElem?_modify_ne _ _ hij]
        exact hi

/-- Every handle was released once as what it was stored under, but for the one that the body
holds, and a body that was emptied holds none. -/
structure Intact (s : BodyOwner) : Prop where
  /-- The handles that the body no longer holds. -/
  past : ∀ (i : ℕ) (handle : BodyHandle), s.handles[i]? = some handle →
    s.data ≠ some i ∨ s.deleted = true → handle.released = [handle.stored]
  /-- The handle that the body holds. -/
  current : ∀ i, s.data = some i → s.deleted = false →
    s.type ≠ .bodyNone ∧ ∃ contents, s.handles[i]? = some ⟨s.type, contents, []⟩
  /-- No handle was misused. -/
  unused : s.misused = false
  /-- The body that was emptied. -/
  emptied : s.emptied = true → s.data = none

/-- The operations that keep a body intact: a body is cleared, changes its type and gets a resource
only while it holds none, and gets one only under a type that releases it. -/
def KeepsOwnership (s : BodyOwner) : BodyAction → Prop
  | .clear | .setType _ => s.data = none
  | .assign _ => s.data = none ∧ s.type ≠ .bodyNone
  | .append _ _ | .replace _ | .delete => True

instance (s : BodyOwner) (a : BodyAction) : Decidable (s.KeepsOwnership a) := by
  cases a <;> unfold KeepsOwnership <;> infer_instance

/-- The handle of an intact body can be used. -/
theorem Intact.usable {i : ℕ} (h : s.Intact) (hdata : s.data = some i)
    (hdeleted : s.deleted = false) : s.usable = true := by
  obtain ⟨_, contents, hi⟩ := h.current i hdata hdeleted
  simp [BodyOwner.usable, held, hdata, hi]

/-- A release leaves no handle of an intact body unreleased. -/
theorem Intact.release (h : s.Intact) (hdeleted : s.deleted = false) :
    ∀ (i : ℕ) (handle : BodyHandle), s.release.handles[i]? = some handle →
      handle.released = [handle.stored] := by
  intro i handle hi
  rcases s.release_cases with ⟨hnothing, hsame⟩ | ⟨j, _, hdata, hrelease⟩
  · have hnone : s.data = none := by
      rcases hnothing with htype | hnone
      · by_contra hne
        obtain ⟨j, hj⟩ := Option.ne_none_iff_exists'.mp hne
        exact (h.current j hj hdeleted).1 htype
      · exact hnone
    rw [hsame] at hi
    exact h.past i handle hi (Or.inl (by simp [hnone]))
  · obtain ⟨_, contents, hj⟩ := h.current j hdata hdeleted
    rw [hrelease] at hi
    by_cases hij : j = i
    · subst hij
      rw [List.getElem?_modify_eq, hj] at hi
      obtain rfl := Option.some.inj hi
      rfl
    · rw [List.getElem?_modify_ne _ _ hij] at hi
      exact h.past i handle hi (Or.inl (by simp [hdata, hij]))

/-- A fresh resource in a body of which every handle was released. -/
theorem intact_store {contents : Bytes} (htype : s.type ≠ .bodyNone)
    (hpast : ∀ (i : ℕ) (handle : BodyHandle), s.handles[i]? = some handle →
      handle.released = [handle.stored])
    (hdeleted : s.deleted = false) (hunused : s.misused = false) :
    Intact { s.store contents with emptied := false } where
  past i handle hi hlost := by
    have hother : i ≠ s.handles.length := by
      rintro rfl
      rcases hlost with hdata | hdel
      · exact hdata rfl
      · exact absurd (hdeleted.symm.trans hdel) (by simp)
    have hold : s.handles[i]? = some handle := by
      simp only [store, List.getElem?_append] at hi
      split at hi
      · exact hi
      · next hge =>
        have hlt := (List.getElem?_eq_some_iff.mp hi).1
        rw [List.length_singleton] at hlt
        omega
    exact hpast i handle hold
  current i hi _ := by
    obtain rfl := Option.some.inj hi
    exact ⟨htype, contents, by simp [store]⟩
  unused := hunused
  emptied hemptied := by simp at hemptied

/-- **Step lemma.** The operations that keep a body intact. -/
theorem Intact.step {a : BodyAction} (h : s.Intact) (ha : s.KeepsOwnership a)
    (hstep : s.step a = some t) : t.Intact := by
  obtain ⟨hdeleted, hstep⟩ := Option.ite_none_left_eq_some.mp hstep
  have hdeleted : s.deleted = false := by simpa using hdeleted
  have hempty (hdata : s.data = none) : s.release = s ∧
      ∀ (i : ℕ) (handle : BodyHandle), s.handles[i]? = some handle →
        handle.released = [handle.stored] := by
    refine ⟨?_, fun i handle hi => h.past i handle hi (Or.inl (by simp [hdata]))⟩
    rcases s.release_cases with ⟨_, hsame⟩ | ⟨j, _, hj, _⟩
    · exact hsame
    · simp [hdata] at hj
  cases a with
  | setType newtype | clear =>
    obtain rfl := Option.some.inj hstep
    have hdata : s.data = none := ha
    obtain ⟨hsame, hpast⟩ := hempty hdata
    simp only [setType, clear, hsame]
    exact ⟨fun i handle hi _ => hpast i handle hi, by simp [hdata], h.unused, fun _ => hdata⟩
  | append str strLen =>
    obtain ⟨htype, rfl | ⟨hdata, contents, rfl⟩ | ⟨j, contents, hj, rfl⟩⟩ := append_cases hstep
    · exact ⟨h.past, h.current, h.unused, by simp⟩
    · exact intact_store (by simp [htype]) (hempty hdata).2 hdeleted h.unused
    · obtain ⟨hne, old, hhandle⟩ := h.current j hj hdeleted
      refine ⟨?_, ?_, ?_, by simp⟩
      · intro i handle hi hlost
        have hij : j ≠ i := by
          rintro rfl
          rcases hlost with hdata | hdel
          · exact hdata hj
          · exact absurd (hdeleted.symm.trans hdel) (by simp)
        rw [List.getElem?_modify_ne _ _ hij] at hi
        exact h.past i handle hi hlost
      · intro i hi _
        obtain rfl : j = i := Option.some.inj (hj.symm.trans hi)
        exact ⟨hne, contents, by simp [hhandle]⟩
      · simp [h.unused, h.usable hj hdeleted]
  | assign contents =>
    obtain rfl := Option.some.inj hstep
    obtain ⟨hdata, htype⟩ := ha
    exact intact_store htype (hempty hdata).2 hdeleted h.unused
  | replace contents =>
    obtain ⟨⟨htype, hdata⟩, hstep⟩ := Option.ite_none_right_eq_some.mp hstep
    obtain rfl := Option.some.inj hstep
    obtain ⟨i, hi⟩ := Option.ne_none_iff_exists'.mp hdata
    have hused : (s.misused || !s.usable) = false := by
      simp [h.unused, h.usable hi hdeleted]
    exact @intact_store { s.release with misused := s.misused || !s.usable } contents
      (by simp [htype]) (h.release hdeleted) (by simpa using hdeleted) hused
  | delete =>
    obtain rfl := Option.some.inj hstep
    refine ⟨fun i handle hi _ => h.release hdeleted i handle hi, by simp, ?_, by simp⟩
    change s.release.misused = false
    rw [release_eq]
    exact h.unused

/-- A new body is intact. -/
theorem intact_new (type : HttpBodyType) (dataptr : Option Bytes) : (new type dataptr).Intact := by
  have hempty : Intact ⟨type, 0, none, [], false, false, false⟩ :=
    ⟨by simp, by simp, rfl, by simp⟩
  unfold new
  split
  · exact hempty
  · exact hempty
  · next contents hne =>
    exact intact_store (s := ⟨type, 0, none, [], false, false, false⟩) hne (by simp) rfl rfl

/-- A body that was emptied has no length and refers to no released handle. -/
def Empty (s : BodyOwner) : Prop :=
  s.len = some 0 ∧ ∀ (i : ℕ) (handle : BodyHandle), s.data = some i →
    s.handles[i]? = some handle → handle.released = []

/-- A handle that will never be released as what it was stored under: the body has lost it, or it
was stored under the type that releases nothing. -/
def Lost (s : BodyOwner) (i : ℕ) : Prop :=
  ∃ handle, s.handles[i]? = some handle ∧ .bodyNone ∉ handle.released ∧
    (handle.stored = .bodyNone ∨ (handle.released = [] ∧ s.data ≠ some i))

/-- A handle that is lost stays lost. -/
theorem Lost.step {a : BodyAction} {i : ℕ} (h : s.Lost i) (hstep : s.step a = some t) :
    t.Lost i := by
  obtain ⟨handle, hi, hfree, hlost⟩ := h
  obtain ⟨after, hafter, hstored, hfreeAfter, hother⟩ := handle_step hstep hi
  refine ⟨after, hafter, hfreeAfter hfree, ?_⟩
  rcases hlost with hnone | ⟨hlive, hdata⟩
  · exact Or.inl (hstored.trans hnone)
  · obtain ⟨hsame, hne⟩ := hother hdata
    exact Or.inr ⟨hsame.trans hlive, hne⟩

/-- A lost handle was not released once as what it was stored under. -/
theorem Lost.not_once {i : ℕ} (h : s.Lost i) :
    ¬∀ handle ∈ s.handles, handle.released = [handle.stored] := by
  intro honce
  obtain ⟨handle, hi, hfree, hlost⟩ := h
  have hreleased := honce handle (List.mem_of_getElem? hi)
  rw [hreleased] at hfree hlost
  rcases hlost with hnone | ⟨hlive, _⟩
  · simp [hnone] at hfree
  · simp at hlive

/-- An intact body that changes its type or is cleared while it holds a handle still refers to it
when it was released. -/
theorem Intact.not_empty {newtype : HttpBodyType} (h : s.Intact) (hdeleted : s.deleted = false)
    (hdata : s.data ≠ none) : ¬Empty { s.clear with type := newtype } := by
  obtain ⟨i, hi⟩ := Option.ne_none_iff_exists'.mp hdata
  obtain ⟨_, contents, hhandle⟩ := h.current i hi hdeleted
  obtain ⟨after, hafter, _⟩ := handle_release hhandle
  rintro ⟨_, hlive⟩
  have hreleased := h.release hdeleted i after hafter
  have hnone := hlive i after (s.release_data.trans hi) hafter
  simp [hnone] at hreleased

/-- An intact body that is given a resource while it holds one, or under the type that releases
nothing, has lost a handle. -/
theorem Intact.lost_assign {contents : Bytes} (h : s.Intact) (hdeleted : s.deleted = false)
    (hbad : ¬(s.data = none ∧ s.type ≠ .bodyNone)) : ∃ i, (s.assign contents).Lost i := by
  cases hdata : s.data with
  | none =>
    have htype : s.type = .bodyNone := by
      by_contra hne
      exact hbad ⟨hdata, hne⟩
    exact ⟨s.handles.length, ⟨s.type, contents, []⟩, by simp [assign, store], by simp,
      Or.inl htype⟩
  | some i =>
    obtain ⟨_, old, hhandle⟩ := h.current i hdata hdeleted
    obtain ⟨hsame, hne⟩ := handle_store hhandle contents
    exact ⟨i, _, hsame, by simp, Or.inr ⟨rfl, hne⟩⟩

end BodyOwner

/-- What holds of the handles that were put into a body whose operations ended in a state. -/
structure ReleasedOnce (type : HttpBodyType) (dataptr : Option Bytes) (actions : List BodyAction)
    (t : BodyOwner) : Prop where
  /-- Every handle was released once, as what it was stored under. -/
  once : ∀ handle ∈ t.handles, handle.released = [handle.stored]
  /-- No handle was misused. -/
  unused : t.misused = false
  /-- Whenever the body was cleared or its type was set, it was empty. -/
  empty : ∀ before, before <+: actions → ∀ s, (bodyLife type dataptr).run before = some s →
    s.emptied = true → s.Empty

/-- Where every handle is released once and an emptied body is empty, each operation keeps the
ownership. -/
theorem meets_of_once {type : HttpBodyType} {dataptr : Option Bytes} {s t : BodyOwner}
    {actions : List BodyAction} (hs : s.Intact)
    (hrun : (bodyLife type dataptr).runFrom s actions = some t)
    (honce : ∀ handle ∈ t.handles, handle.released = [handle.stored])
    (hempty : ∀ before, before <+: actions → ∀ u,
      (bodyLife type dataptr).runFrom s before = some u → u.emptied = true → u.Empty) :
    (bodyLife type dataptr).Meets BodyOwner.KeepsOwnership s actions := by
  induction actions generalizing s with
  | nil => trivial
  | cons a actions ih =>
    obtain ⟨u, hu, hrest⟩ := (Machine.runFrom_cons _).mp hrun
    have hnotLost (i : ℕ) : ¬u.Lost i := fun hlost =>
      BodyOwner.Lost.not_once ((bodyLife type dataptr).invariant_of_step
        (fun s a t (hs : s.Lost i) hstep => hs.step hstep) hlost hrest) honce
    have hthis (hemptied : u.emptied = true) : u.Empty :=
      hempty [a] ⟨actions, rfl⟩ u ((Machine.runFrom_cons _).mpr ⟨u, hu, rfl⟩) hemptied
    have hgood : s.KeepsOwnership a := by
      by_contra hbad
      obtain ⟨hdeleted, hstep⟩ := Option.ite_none_left_eq_some.mp hu
      have hdeleted : s.deleted = false := by simpa using hdeleted
      cases a with
      | setType newtype =>
        obtain rfl := Option.some.inj hstep
        exact hs.not_empty hdeleted hbad (hthis rfl)
      | clear =>
        obtain rfl := Option.some.inj hstep
        exact hs.not_empty hdeleted hbad (hthis rfl)
      | assign contents =>
        obtain rfl := Option.some.inj hstep
        obtain ⟨i, hlost⟩ := hs.lost_assign hdeleted hbad
        exact hnotLost i hlost
      | append str strLen | replace contents | delete => exact hbad trivial
    refine ⟨hgood, fun v hv => ?_⟩
    obtain rfl : u = v := Option.some.inj (hu.symm.trans hv)
    apply ih (hs.step hgood hu) hrest
    intro before hbefore w hw
    exact hempty (a :: before) (List.cons_prefix_cons.mpr ⟨rfl, hbefore⟩) w
      ((Machine.runFrom_cons _).mpr ⟨u, hu, hw⟩)

/-- Over a body's life every handle is released once and an emptied body is empty exactly where
the body is cleared, changes its type and gets a resource only while it holds none. -/
theorem releasedOnce_iff {type : HttpBodyType} {dataptr : Option Bytes} {actions : List BodyAction}
    {t : BodyOwner} (hrun : (bodyLife type dataptr).run actions = some t)
    (hdeleted : t.deleted = true) : ReleasedOnce type dataptr actions t ↔
      (bodyLife type dataptr).Meets BodyOwner.KeepsOwnership (.new type dataptr) actions := by
  have hnew := BodyOwner.intact_new type dataptr
  constructor
  · intro h
    exact meets_of_once hnew hrun h.once h.empty
  · intro hmeets
    have hintact {before : List BodyAction} {s : BodyOwner} (hbefore : before <+: actions)
        (hrun : (bodyLife type dataptr).run before = some s) : s.Intact :=
      (bodyLife type dataptr).invariant _ BodyOwner.Intact
        (fun s a t hs ha hstep => hs.step ha hstep) hnew
        (hmeets.initial _ hbefore) hrun
    have ht := hintact List.prefix_rfl hrun
    refine ⟨fun handle hmem => ?_, ht.unused, fun before hbefore s hs hemptied => ?_⟩
    · obtain ⟨i, hi⟩ := List.mem_iff_getElem?.mp hmem
      exact ht.past i handle hi (Or.inr hdeleted)
    · have hdata := (hintact hbefore hs).emptied hemptied
      exact ⟨by simp [BodyOwner.len, hdata], by simp [hdata]⟩

/-- The body of an error page is a string that is rewritten, the body of a file the file. -/
theorem releasedOnce_page : ∃ t,
    (bodyLife .bodyNone none).run [.setType .bodyString, .append (ascii "page") 4,
      .replace (ascii "text"), .delete] = some t ∧
    ReleasedOnce .bodyNone none [.setType .bodyString, .append (ascii "page") 4,
      .replace (ascii "text"), .delete] t :=
  have hrun : (bodyLife .bodyNone none).run [.setType .bodyString, .append (ascii "page") 4,
      .replace (ascii "text"), .delete] = some ⟨.bodyString, 0, some 1,
        [⟨.bodyString, ascii "page", [.bodyString]⟩, ⟨.bodyString, ascii "text", [.bodyString]⟩],
        false, false, true⟩ := by
    decide
  ⟨_, hrun, (releasedOnce_iff hrun rfl).mpr (by decide)⟩

/-- A body is cleared and then deleted: its string is freed twice. -/
theorem not_releasedOnce_cleared : ∃ t,
    (bodyLife .bodyString (some (ascii "text"))).run [.clear, .delete] = some t ∧
    ¬ReleasedOnce .bodyString (some (ascii "text")) [.clear, .delete] t := by
  refine ⟨⟨.bodyString, 0, some 0,
    [⟨.bodyString, ascii "text", [.bodyString, .bodyString]⟩], false, false, true⟩, by decide, ?_⟩
  intro h
  have honce := h.once _ List.mem_cons_self
  simp at honce

end Khttp
