import Mathlib.Tactic.Common
import Mathlib.Data.List.Basic

/-!
# Computations that call out

A computation that makes calls on its way and goes on with what they answer. It knows
nothing of the state behind the calls, so its calls can be answered by any handler, or be
listed under the assumption that every answer is the same.
-/

namespace Khttp.Lib

/-- A computation with calls `κ`, answers `α` and results `ρ`. -/
inductive Calls (κ α ρ : Type*) where
  /-- It has ended. -/
  | done (result : ρ)
  /-- It has failed. -/
  | crash
  /-- It makes a call and goes on with the answer. -/
  | call (request : κ) (next : α → Calls κ α ρ)

namespace Calls

variable {κ α σ ρ τ : Type*}

/-- One computation behind the other. -/
def bind (f : ρ → Calls κ α τ) : Calls κ α ρ → Calls κ α τ
  | done r => f r
  | crash => crash
  | call c next => call c fun a => (next a).bind f

/-- The computation where a handler with a state answers the calls; it fails with the handler. -/
def run (handler : σ → κ → Option (σ × α)) (s : σ) : Calls κ α ρ → Option (σ × ρ)
  | done r => some (s, r)
  | crash => none
  | call c next => (handler s c).bind fun (t, a) => (next a).run handler t

/-- The calls and the result where every call has the same answer. -/
def record (answer : α) : Calls κ α ρ → Option (List κ × ρ)
  | done r => some ([], r)
  | crash => none
  | call c next => ((next answer).record answer).map fun (cs, r) => (c :: cs, r)

/-- The handler's state behind a list of calls, up to the first that has another answer; the
flag says whether there was none. -/
def replay [DecidableEq α] (handler : σ → κ → Option (σ × α)) (answer : α) (s : σ) :
    List κ → Option (σ × Bool)
  | [] => some (s, true)
  | c :: cs => (handler s c).bind fun (t, a) =>
      if a = answer then replay handler answer t cs else some (t, false)

/-- Whatever the answers are, the computation does not fail: an answer that stops it leaves a
result in `halted` at once, and where there is none the result is in `good`. -/
def Meets (stops : κ → α → Prop) (halted good : ρ → Prop) : Calls κ α ρ → Prop
  | done r => good r
  | crash => False
  | call c next => ∀ a, (stops c a → ∃ r, next a = done r ∧ halted r) ∧
      (¬stops c a → (next a).Meets stops halted good)

@[simp] theorem bind_done (f : ρ → Calls κ α τ) (r : ρ) : (done r).bind f = f r := by
  rw [bind]

@[simp] theorem bind_crash (f : ρ → Calls κ α τ) : (crash : Calls κ α ρ).bind f = crash := by
  rw [bind]

@[simp] theorem bind_call (f : ρ → Calls κ α τ) (c : κ) (next : α → Calls κ α ρ) :
    (call c next).bind f = call c fun a => (next a).bind f := by
  rw [bind]

@[simp] theorem record_done (answer : α) (r : ρ) :
    (done r : Calls κ α ρ).record answer = some ([], r) := by
  rw [record]

@[simp] theorem record_crash (answer : α) : (crash : Calls κ α ρ).record answer = none := by
  rw [record]

@[simp] theorem record_call (answer : α) (c : κ) (next : α → Calls κ α ρ) :
    (call c next).record answer =
      ((next answer).record answer).map fun (cs, r) => (c :: cs, r) := by
  rw [record]

/-- The handler answers the calls of two computations in a row. -/
theorem run_bind (handler : σ → κ → Option (σ × α)) (m : Calls κ α ρ)
    (f : ρ → Calls κ α τ) (s : σ) :
    (m.bind f).run handler s =
      (m.run handler s).bind fun (t, r) => (f r).run handler t := by
  induction m generalizing s with
  | done r => rw [bind_done, run, Option.bind_some]
  | crash => rw [bind_crash, run, run, Option.bind_none]
  | call c next ih =>
    rw [bind_call, run, run, Option.bind_assoc]
    exact Option.bind_congr fun result _ => ih result.2 result.1

/-- The calls of two computations in a row. -/
theorem record_bind (answer : α) (m : Calls κ α ρ) (f : ρ → Calls κ α τ) :
    (m.bind f).record answer = (m.record answer).bind fun (cs, r) =>
      ((f r).record answer).map fun (ds, t) => (cs ++ ds, t) := by
  induction m with
  | done r => simp
  | crash => simp
  | call c next ih =>
    rw [bind_call, record_call, record_call, ih answer]
    cases h : (next answer).record answer with
    | none => simp
    | some result => simp [Function.comp_def]

/-- **Sequence rule.** What follows a computation meets its requirement from every good result,
and ends at once behind a halted one. -/
theorem Meets.bind {stops : κ → α → Prop} {halted good : ρ → Prop} {halted' good' : τ → Prop}
    {m : Calls κ α ρ} {f : ρ → Calls κ α τ} (h : m.Meets stops halted good)
    (hhalted : ∀ r, halted r → ∃ t, f r = done t ∧ halted' t)
    (hgood : ∀ r, good r → (f r).Meets stops halted' good') :
    (m.bind f).Meets stops halted' good' := by
  induction m with
  | done r =>
    rw [bind_done]
    exact hgood r h
  | crash => exact absurd h id
  | call c next ih =>
    rw [bind_call]
    intro a
    refine ⟨fun hstops => ?_, fun hstops => ih a ((h a).2 hstops)⟩
    obtain ⟨r, hr, hhalt⟩ := (h a).1 hstops
    obtain ⟨t, ht, hhalt'⟩ := hhalted r hhalt
    exact ⟨t, by simp only [hr, bind_done, ht], hhalt'⟩

/-- With a handler that never fails there is a result, halted or good. -/
theorem Meets.exists_run {stops : κ → α → Prop} {halted good : ρ → Prop} {m : Calls κ α ρ}
    (h : m.Meets stops halted good) (handler : σ → κ → σ × α) (s : σ) :
    ∃ t r, m.run (fun s c => some (handler s c)) s = some (t, r) ∧ (halted r ∨ good r) := by
  induction m generalizing s with
  | done r => exact ⟨s, r, by rw [run], Or.inr h⟩
  | crash => exact absurd h id
  | call c next ih =>
    rw [run, Option.bind_some]
    obtain ⟨t, a⟩ := handler s c
    dsimp only
    by_cases hstops : stops c a
    · obtain ⟨r, hr, hhalt⟩ := (h a).1 hstops
      exact ⟨t, r, by rw [hr, run], Or.inl hhalt⟩
    · exact ih a ((h a).2 hstops) t

/-- A computation that meets a requirement has a record under an answer that stops no call. -/
theorem Meets.exists_record {stops : κ → α → Prop} {halted good : ρ → Prop} {m : Calls κ α ρ}
    (h : m.Meets stops halted good) {answer : α} (hanswer : ∀ c, ¬stops c answer) :
    ∃ cs r, m.record answer = some (cs, r) ∧ good r := by
  induction m with
  | done r => exact ⟨[], r, record_done answer r, h⟩
  | crash => exact absurd h id
  | call c next ih =>
    obtain ⟨cs, r, hrecord, hgood⟩ := ih answer ((h answer).2 (hanswer c))
    exact ⟨c :: cs, r, by rw [record_call, hrecord, Option.map_some], hgood⟩

/-- **Replay rule.** Where a handler gives either the recorded answer or one that stops the
computation, running with the handler is replaying the recorded calls. -/
theorem Meets.run_eq [DecidableEq α] {stops : κ → α → Prop} {halted good : ρ → Prop}
    {m : Calls κ α ρ} (h : m.Meets stops halted good) {answer : α}
    (hanswer : ∀ c, ¬stops c answer) {handler : σ → κ → Option (σ × α)}
    (hhandler : ∀ s c t a, handler s c = some (t, a) → a = answer ∨ stops c a)
    {cs : List κ} {r : ρ} (hrecord : m.record answer = some (cs, r)) (s : σ) :
    match replay handler answer s cs with
    | none => m.run handler s = none
    | some (t, true) => m.run handler s = some (t, r)
    | some (t, false) => ∃ r', m.run handler s = some (t, r') ∧ halted r' := by
  induction m generalizing s cs with
  | done r' =>
    obtain ⟨rfl, rfl⟩ := Prod.mk.inj (Option.some.inj ((record_done answer r').symm.trans hrecord))
    simp [replay, run]
  | crash => exact absurd h id
  | call c next ih =>
    rw [record_call] at hrecord
    obtain ⟨⟨ds, r'⟩, hnext, heq⟩ := Option.map_eq_some_iff.mp hrecord
    obtain ⟨rfl, rfl⟩ := Prod.mk.inj heq
    rw [replay, run]
    cases hcall : handler s c with
    | none => simp
    | some result =>
      obtain ⟨t, a⟩ := result
      simp only [Option.bind_some]
      by_cases ha : a = answer
      · subst ha
        rw [if_pos rfl]
        exact ih a ((h a).2 (hanswer c)) hnext t
      · rw [if_neg ha]
        have hstops := (hhandler s c t a hcall).resolve_left ha
        obtain ⟨r'', hr'', hhalt⟩ := (h a).1 hstops
        exact ⟨r'', by rw [hr'', run], hhalt⟩

end Calls

end Khttp.Lib
