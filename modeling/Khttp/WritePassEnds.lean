import Khttp.WritePass
import Mathlib.Data.Prod.Lex
import Mathlib.Order.WellFounded
import Mathlib.Tactic.IntervalCases

/-!
# When a write pass ends

A pass should make no further write after one that was refused and should then reach
the end of its critical section. The loop over the responses does neither on two
paths: the head of a response may be refused, and a response may be taken up on a
connection already marked with an error.
-/

namespace Khttp

open Lib

/-- The calls after which the pass should write nothing more. -/
def SysCall.Refused : SysCall → Prop
  | .write _ .wouldBlock | .write _ .hardError | .readFailed => True
  | .write _ (.accept _) | .close => False

/-- The writes among the calls. -/
def SysCall.IsWrite : SysCall → Prop
  | .write _ _ => True
  | .readFailed | .close => False

instance : DecidablePred SysCall.Refused := fun c => by
  unfold SysCall.Refused
  split <;> infer_instance

instance : DecidablePred SysCall.IsWrite := fun c => by
  unfold SysCall.IsWrite
  split <;> infer_instance

/-- No write comes after a refused call. -/
def NoFurtherWrite (calls : List SysCall) : Prop :=
  calls.Pairwise fun c d => c.Refused → ¬d.IsWrite

instance (calls : List SysCall) : Decidable (NoFurtherWrite calls) :=
  inferInstanceAs (Decidable (calls.Pairwise _))

/-- Calls among which none was refused may be followed by any call. -/
theorem NoFurtherWrite.snoc {calls : List SysCall} {c : SysCall} (h : NoFurtherWrite calls)
    (hc : (∀ d ∈ calls, ¬d.Refused) ∨ ¬c.IsWrite) : NoFurtherWrite (calls ++ [c]) := by
  apply List.pairwise_append.mpr
  refine ⟨h, List.pairwise_singleton _ _, ?_⟩
  intro d hd e he hrefused
  obtain rfl := List.mem_singleton.mp he
  rcases hc with hnone | hwrite
  · exact absurd hrefused (hnone d hd)
  · exact hwrite

/-- An accepted write may follow calls that were not refused. -/
theorem accepted_snoc {calls : List SysCall} {offered : Bytes} {n : ℕ}
    (hnone : ∀ c ∈ calls, ¬c.Refused) :
    ∀ c ∈ calls ++ [.write offered (.accept n)], ¬c.Refused := by
  intro c hc
  rcases List.mem_append.mp hc with hc | hc
  · exact hnone c hc
  · obtain rfl := List.mem_singleton.mp hc
    exact not_false

/-- How far a position is from the end of the work on one response. -/
def WritePc.rank : WritePc → ℕ
  | .drainFirst => 8
  | .check => 7
  | .loop => 6
  | .drainHead => 5
  | .afterHead => 4
  | .body => 3
  | .sent => 2
  | .finished | .aborted => 0

/-- A successful `write` in this step accepts at least one byte. -/
def WriteEnv.Progresses (env : WriteEnv) : Prop := env.write ≠ .accept 0

/-- The states of a pass over a connection under a script of outcomes. -/
def passAt (conn : WriteConn) (script : ℕ → WriteEnv) (n : ℕ) : WritePass :=
  (writeMachine conn).follow (.start conn) script n

/-- The pass writes nothing after a refusal and, where writes make progress, ends. -/
def WritePassEnds (conn : WriteConn) (script : ℕ → WriteEnv) : Prop :=
  (∀ n, NoFurtherWrite (passAt conn script n).calls) ∧
    ((∀ n, (script n).Progresses) → ∃ n, (passAt conn script n).pc = .finished)

namespace WritePass

/-- What a step needs: the write of a head is not refused; a response is taken up
only while the connection has no error, and its headers can be completed; a body that
is sent has its data; a `Connection` header has its content. -/
def StepOk (s : WritePass) (env : WriteEnv) : Prop :=
  match s.pc, s.conn.pendingResponses with
  | .drainHead, _ =>
    ∀ offered l, s.conn.pendingWrites.drainRound env.write = .wrote offered l →
      ∃ n, env.write = .accept n
  | .loop, response :: _ => s.conn.error = false ∧ httpResponseWrite env.date response ≠ none
  | .body, response :: _ => response.body.HasData
  | .sent, response :: _ => saysClose response ≠ none
  | _, _ => True

/-- The first response is at hand and satisfies a condition. -/
def Current (s : WritePass) (p : HttpResponse → Prop) : Prop :=
  ∃ response rest, s.conn.pendingResponses = response :: rest ∧ p response

/-- What holds at each position of a pass whose steps were all in order. -/
def Shape (s : WritePass) : Prop :=
  match s.pc with
  | .drainFirst | .check | .finished => True
  | .aborted => False
  | .loop => s.conn.pendingWrites.first = none
  | .drainHead => s.conn.error = false ∧ s.Current HeadMade
  | .afterHead =>
    s.conn.error = false ∧ s.conn.pendingWrites.first = none ∧ s.Current HeadMade
  | .body =>
    s.conn.pendingWrites.first = none ∧ s.Current fun r => r.sendStatus = .sendBody
  | .sent =>
    s.conn.pendingWrites.first = none ∧ s.Current fun r => r.sendStatus = .sendDone

/-- The positions from which a pass in order makes no further write. -/
def Over (s : WritePass) : Prop :=
  match s.pc with
  | .check => s.conn.pendingWrites.first ≠ none
  | .finished => True
  | .sent | .loop => s.conn.error = true
  | _ => False

/-- The invariant of passes whose steps are all in order. -/
structure Proper (s : WritePass) : Prop where
  /-- The buffer list is well formed. -/
  holds : ∃ k bs, s.conn.pendingWrites.Holds k bs
  /-- The position fits the connection. -/
  shape : s.Shape
  /-- No write has followed a refusal. -/
  quiet : NoFurtherWrite s.calls
  /-- After a refusal the pass is over. -/
  isOver : (∀ c ∈ s.calls, ¬c.Refused) ∨ s.Over

/-- A pass starts properly. -/
theorem Proper.start {conn : WriteConn} {k : ℕ} {bs : Bytes}
    (h : conn.pendingWrites.Holds k bs) : (start conn).Proper :=
  ⟨⟨k, bs, h⟩, trivial, List.Pairwise.nil, Or.inl (by simp [WritePass.start])⟩

/-- Draining keeps a pass proper, provided a refusal leads to the test for pending
writes or does not occur. -/
theorem Proper.drain {s : WritePass} {outcome : WriteOutcome} {next : WritePc} (h : s.Proper)
    (hnone : ∀ c ∈ s.calls, ¬c.Refused)
    (hstay : ∀ calls l, Shape { s with calls := calls, conn.pendingWrites := l })
    (hnext : s.conn.pendingWrites.first = none → Shape { s with pc := next })
    (hrefused : next = .check ∨
      ∀ offered l, s.conn.pendingWrites.drainRound outcome = .wrote offered l →
        ∃ n, outcome = .accept n) : (s.drain outcome next).Proper := by
  obtain ⟨k, bs, hholds⟩ := h.holds
  rcases drain_cases hholds outcome next with ⟨hfirst, _, hdrain⟩ | ⟨l, k', hdrain, hl, _⟩ |
    ⟨offered, l, hround, _, _, hfirst, ⟨n, rfl, hdrain, hl⟩ | ⟨rfl, hdrain⟩ | ⟨rfl, hdrain⟩⟩
  · rw [hdrain]
    exact ⟨⟨k, bs, hholds⟩, hnext hfirst, h.quiet, Or.inl hnone⟩
  · rw [hdrain]
    exact ⟨⟨k', bs, hl⟩, hstay s.calls l, h.quiet, Or.inl hnone⟩
  · rw [hdrain]
    exact ⟨⟨k, _, hl⟩, hstay _ l, h.quiet.snoc (Or.inl hnone), Or.inl (accepted_snoc hnone)⟩
  · rcases hrefused with rfl | haccept
    · rw [hdrain]
      exact ⟨⟨k, bs, hholds⟩, trivial, h.quiet.snoc (Or.inl hnone), Or.inr hfirst⟩
    · obtain ⟨n, hn⟩ := haccept offered l hround
      simp at hn
  · rcases hrefused with rfl | haccept
    · rw [hdrain]
      exact ⟨⟨k, bs, hholds⟩, trivial, h.quiet.snoc (Or.inl hnone), Or.inr hfirst⟩
    · obtain ⟨n, hn⟩ := haccept offered l hround
      simp at hn

/-- Taking up a response in order keeps a pass proper. -/
theorem Proper.takeUp {s : WritePass} {date : Bytes} {response : HttpResponse}
    {rest : List HttpResponse} (h : s.Proper) (hpc : s.pc = .loop)
    (hresponses : s.conn.pendingResponses = response :: rest) (herror : s.conn.error = false)
    (hwrite : httpResponseWrite date response ≠ none) :
    (s.takeUp date response rest).Proper := by
  obtain ⟨k, bs, hholds⟩ := h.holds
  have hfirst : s.conn.pendingWrites.first = none := by simpa only [Shape, hpc] using h.shape
  have hnone : ∀ c ∈ s.calls, ¬c.Refused := by
    rcases h.isOver with hnone | hover
    · exact hnone
    · simp [Over, hpc, herror] at hover
  rcases takeUp_cases date (Or.inl hfirst) hresponses with ⟨hcrash, _⟩ |
    ⟨hmade, htake⟩ | ⟨_, _, head, headers, l, k', _, hl, htake⟩
  · exact absurd hcrash hwrite
  · rw [htake]
    exact ⟨⟨k, bs, hholds⟩, ⟨herror, response, rest, hresponses, hmade⟩, h.quiet, Or.inl hnone⟩
  · rw [htake]
    exact ⟨⟨k', head, hl⟩, ⟨herror, _, rest, rfl, Or.inl rfl⟩, h.quiet, Or.inl hnone⟩

/-- The end of a body keeps a pass proper: whatever was refused, the pass is over or the
connection is marked with an error. -/
theorem Proper.endBody {s : WritePass} {result : HttpBodyWriteResult} {response : HttpResponse}
    {rest : List HttpResponse} (hholds : ∃ k bs, s.conn.pendingWrites.Holds k bs)
    (hfirst : s.conn.pendingWrites.first = none) (hquiet : NoFurtherWrite s.calls)
    (hnone : (∀ c ∈ s.calls, ¬c.Refused) ∨ result ≠ .done) :
    (s.endBody result response rest).Proper := by
  cases result with
  | done =>
    exact ⟨hholds, ⟨hfirst, _, rest, rfl, rfl⟩, hquiet, Or.inl (hnone.resolve_right (by simp))⟩
  | error => exact ⟨hholds, ⟨hfirst, _, rest, rfl, rfl⟩, hquiet, Or.inr rfl⟩
  | blocked | more => exact ⟨hholds, trivial, hquiet, Or.inr trivial⟩

/-- A round of sending a body keeps a pass proper. -/
theorem Proper.writeBody {s : WritePass} {env : WriteEnv} {response : HttpResponse}
    {rest : List HttpResponse} (h : s.Proper) (hpc : s.pc = .body)
    (hresponses : s.conn.pendingResponses = response :: rest)
    (hdata : response.body.HasData) : (s.writeBody env response rest).Proper := by
  have hfirst : s.conn.pendingWrites.first = none := by
    have hshape := h.shape
    simp only [Shape, hpc] at hshape
    exact hshape.1
  have hstatus : response.sendStatus = .sendBody := by
    have hshape := h.shape
    simp only [Shape, hpc, Current, hresponses, List.cons.injEq] at hshape
    obtain ⟨_, _, _, ⟨rfl, _⟩, hstatus⟩ := hshape
    exact hstatus
  have hnone : ∀ c ∈ s.calls, ¬c.Refused := by
    rcases h.isOver with hnone | hover
    · exact hnone
    · simp [Over, hpc] at hover
  have hquiet (c : SysCall) : NoFurtherWrite (s.calls ++ [c]) := h.quiet.snoc (Or.inl hnone)
  rcases writeBody_cases s env rest hdata with ⟨_, hround⟩ |
    ⟨offered, _, _, ⟨n, henv, hround | ⟨_, hround⟩⟩ | ⟨henv, hround⟩ | ⟨henv, hround⟩⟩ |
    ⟨_, hround⟩
  · rw [hround]
    exact .endBody h.holds hfirst h.quiet (Or.inl hnone)
  · rw [hround]
    refine ⟨h.holds, ?_, hquiet _, Or.inl ?_⟩
    · simp only [Shape, hpc]
      exact ⟨hfirst, _, rest, rfl, hstatus⟩
    · rw [henv]
      exact accepted_snoc hnone
  · rw [hround]
    refine .endBody h.holds hfirst (hquiet _) (Or.inl ?_)
    rw [henv]
    exact accepted_snoc hnone
  · rw [hround]
    exact .endBody h.holds hfirst (hquiet _) (Or.inr (by simp))
  · rw [hround]
    exact .endBody h.holds hfirst (hquiet _) (Or.inr (by simp))
  · rw [hround]
    refine .endBody h.holds hfirst (hquiet _) (Or.inr ?_)
    unfold HttpBody.failure
    split <;> simp

/-- Removing a sent response keeps a pass proper. -/
theorem Proper.removeSent {s : WritePass} {response : HttpResponse}
    {rest : List HttpResponse} (h : s.Proper) (hpc : s.pc = .sent)
    (hclose : saysClose response ≠ none) : (s.removeSent response rest).Proper := by
  have hfirst : s.conn.pendingWrites.first = none := by
    have hshape := h.shape
    simp only [Shape, hpc] at hshape
    exact hshape.1
  have hover : (∀ c ∈ s.calls, ¬c.Refused) ∨ s.conn.error = true := by
    simpa only [Over, hpc] using h.isOver
  unfold WritePass.removeSent
  match hsays : saysClose response with
  | none => exact absurd hsays hclose
  | some true => exact ⟨h.holds, trivial, h.quiet.snoc (Or.inr not_false), Or.inr trivial⟩
  | some false => exact ⟨h.holds, hfirst, h.quiet, hover⟩

/-- **Step lemma.** A step that is in order keeps a pass proper. -/
theorem Proper.step {s t : WritePass} {env : WriteEnv} (h : s.Proper) (hok : s.StepOk env)
    (hstep : s.step env = some t) : t.Proper := by
  have hshape := h.shape
  have hover := h.isOver
  cases hpc : s.pc with
  | drainFirst =>
    simp only [Shape, Over, hpc, or_false] at hshape hover
    simp only [WritePass.step, hpc, Option.some.injEq] at hstep
    obtain rfl := hstep
    refine h.drain hover (fun calls l => ?_) (fun _ => trivial) (Or.inl rfl)
    simp only [Shape, hpc]
  | check =>
    simp only [WritePass.step, hpc, Option.some.injEq] at hstep
    obtain rfl := hstep
    simp only [Over, hpc] at hover
    by_cases hfirst : s.conn.pendingWrites.first = none
    · rw [if_pos hfirst]
      exact ⟨h.holds, hfirst, h.quiet, Or.inl (hover.resolve_right (not_not.mpr hfirst))⟩
    · rw [if_neg hfirst]
      exact ⟨h.holds, trivial, h.quiet, Or.inr trivial⟩
  | loop =>
    cases hresponses : s.conn.pendingResponses with
    | nil =>
      simp only [WritePass.step, hpc, hresponses, Option.some.injEq] at hstep
      obtain rfl := hstep
      exact ⟨h.holds, trivial, h.quiet, Or.inr trivial⟩
    | cons response rest =>
      simp only [WritePass.step, hpc, hresponses, Option.some.injEq] at hstep
      obtain rfl := hstep
      simp only [StepOk, hpc, hresponses] at hok
      exact h.takeUp hpc hresponses hok.1 hok.2
  | drainHead =>
    simp only [Shape, Over, hpc, or_false] at hshape hover
    simp only [WritePass.step, hpc, Option.some.injEq] at hstep
    obtain rfl := hstep
    simp only [StepOk, hpc] at hok
    refine h.drain hover (fun calls l => ?_) (fun hfirst => ⟨hshape.1, hfirst, hshape.2⟩)
      (Or.inr hok)
    simp only [Shape, hpc]
    exact hshape
  | afterHead =>
    simp only [Shape, Over, hpc, or_false] at hshape hover
    obtain ⟨herror, hfirst, response, rest, hresponses, hmade⟩ := hshape
    simp only [WritePass.step, hpc, hresponses] at hstep
    rw [if_pos ⟨herror, hfirst⟩] at hstep
    rcases hmade with hbody | hdone
    · rw [hbody] at hstep
      simp only at hstep
      split at hstep
      · obtain rfl := Option.some.inj hstep
        exact .endBody h.holds hfirst h.quiet (Or.inl hover)
      · obtain rfl := Option.some.inj hstep
        exact ⟨h.holds, ⟨hfirst, response, rest, hresponses, hbody⟩, h.quiet, Or.inl hover⟩
    · rw [hdone] at hstep
      obtain rfl := Option.some.inj hstep
      exact ⟨h.holds, ⟨hfirst, response, rest, hresponses, hdone⟩, h.quiet, Or.inl hover⟩
  | body =>
    simp only [Shape, hpc] at hshape
    obtain ⟨hfirst, response, rest, hresponses, _⟩ := hshape
    simp only [WritePass.step, hpc, hresponses, Option.some.injEq] at hstep
    obtain rfl := hstep
    simp only [StepOk, hpc, hresponses] at hok
    exact h.writeBody hpc hresponses hok
  | sent =>
    simp only [Shape, hpc] at hshape
    obtain ⟨hfirst, response, rest, hresponses, _⟩ := hshape
    simp only [WritePass.step, hpc, hresponses, Option.some.injEq] at hstep
    obtain rfl := hstep
    simp only [StepOk, hpc, hresponses] at hok
    exact h.removeSent hpc hok
  | finished => simp [WritePass.step, hpc] at hstep
  | aborted => simp [WritePass.step, hpc] at hstep

/-- What is left of the loop that the position is in, where the list has `k` buffers
with `bs` waiting. -/
def work (s : WritePass) (k : ℕ) (bs : Bytes) : ℕ :=
  match s.pc, s.conn.pendingResponses with
  | .drainFirst, _ | .drainHead, _ => k + bs.length
  | .body, response :: _ => response.body.remaining.length
  | _, _ => 0

/-- The rank of a pass: responses, then positions, then the bytes of the inner loops. -/
def Rank (s : WritePass) (m : ℕ ×ₗ ℕ ×ₗ ℕ) : Prop :=
  ∃ k bs, s.conn.pendingWrites.Holds k bs ∧
    m = toLex (s.conn.pendingResponses.length, toLex (s.pc.rank, s.work k bs))

/-- A pass at a later position ranks below. -/
theorem Rank.below_of_pc {s t : WritePass} {m : ℕ ×ₗ ℕ ×ₗ ℕ} {p : WritePc}
    (hrank : s.Rank m) (ht : t.Proper)
    (hresponses : t.conn.pendingResponses.length = s.conn.pendingResponses.length)
    (hp : s.pc = p) (q : WritePc) (hq : t.pc = q) (hpc : q.rank < p.rank) :
    ∃ m' < m, t.Rank m' := by
  obtain ⟨_, _, _, rfl⟩ := hrank
  obtain ⟨k, bs, hholds⟩ := ht.holds
  refine ⟨_, ?_, k, bs, hholds, rfl⟩
  rw [hresponses, hp, hq]
  exact Prod.Lex.toLex_lt_toLex.mpr (Or.inr ⟨rfl, Prod.Lex.toLex_lt_toLex.mpr (Or.inl hpc)⟩)

/-- A pass with fewer responses ranks below. -/
theorem Rank.below_of_responses {s t : WritePass} {m : ℕ ×ₗ ℕ ×ₗ ℕ} (hrank : s.Rank m)
    (ht : t.Proper)
    (hresponses : t.conn.pendingResponses.length < s.conn.pendingResponses.length) :
    ∃ m' < m, t.Rank m' := by
  obtain ⟨_, _, _, rfl⟩ := hrank
  obtain ⟨k, bs, hholds⟩ := ht.holds
  exact ⟨_, Prod.Lex.toLex_lt_toLex.mpr (Or.inl hresponses), k, bs, hholds, rfl⟩

/-- Accepting at least one byte of a nonempty front part shortens what waits. -/
theorem length_drop_lt {bs offered : Bytes} {n : ℕ} (hne : offered ≠ []) (hpre : offered <+: bs)
    (hn : n ≠ 0) : (bs.drop (min n offered.length)).length < bs.length := by
  have hpos := List.length_pos_iff.mpr hne
  have hle := hpre.length_le
  rw [List.length_drop]
  omega

/-- Draining lowers the rank: a buffer or a byte leaves the list, or the loop ends. -/
theorem Rank.drain {s : WritePass} {m : ℕ ×ₗ ℕ ×ₗ ℕ} {outcome : WriteOutcome}
    {next : WritePc} (hrank : s.Rank m) (ht : (s.drain outcome next).Proper)
    (hpc : s.pc = .drainFirst ∨ s.pc = .drainHead) (hnext : next.rank < s.pc.rank)
    (hprogress : outcome ≠ .accept 0) : ∃ m' < m, (s.drain outcome next).Rank m' := by
  obtain ⟨k, bs, hholds, rfl⟩ := id hrank
  have hwork (t : WritePass) (k' : ℕ) (bs' : Bytes) (htpc : t.pc = s.pc)
      (hresponses : t.conn.pendingResponses = s.conn.pendingResponses)
      (hholds' : t.conn.pendingWrites.Holds k' bs')
      (hlt : k' + bs'.length < k + bs.length) :
      ∃ m' < toLex (s.conn.pendingResponses.length, toLex (s.pc.rank, s.work k bs)),
        t.Rank m' := by
    refine ⟨_, ?_, k', bs', hholds', rfl⟩
    rw [hresponses, htpc]
    apply Prod.Lex.toLex_lt_toLex.mpr
    refine Or.inr ⟨rfl, Prod.Lex.toLex_lt_toLex.mpr (Or.inr ⟨rfl, ?_⟩)⟩
    rcases hpc with hpc | hpc <;> simpa only [work, htpc, hpc] using hlt
  rcases drain_cases hholds outcome next with ⟨_, _, hdrain⟩ | ⟨l, k', hdrain, hl, hk⟩ |
    ⟨offered, l, _, hne, hpre, _, ⟨n, rfl, hdrain, hl⟩ | ⟨rfl, hdrain⟩ | ⟨rfl, hdrain⟩⟩
  · rw [hdrain] at ht ⊢
    exact hrank.below_of_pc ht rfl rfl next rfl hnext
  · rw [hdrain]
    exact hwork _ k' bs rfl rfl hl (by omega)
  · rw [hdrain]
    have hn : n ≠ 0 := fun hzero => hprogress (by rw [hzero])
    have hlt := length_drop_lt hne hpre hn
    exact hwork _ k _ rfl rfl hl (by omega)
  · rw [hdrain] at ht ⊢
    exact hrank.below_of_pc ht rfl rfl next rfl hnext
  · rw [hdrain] at ht ⊢
    exact hrank.below_of_pc ht rfl rfl next rfl hnext

/-- The end of a body lowers the rank. -/
theorem Rank.endBody {s u : WritePass} {m : ℕ ×ₗ ℕ ×ₗ ℕ} {result : HttpBodyWriteResult}
    {response : HttpResponse} {rest : List HttpResponse} (hrank : s.Rank m)
    (ht : (u.endBody result response rest).Proper)
    (hresponses : s.conn.pendingResponses.length = rest.length + 1) (hpc : s.pc = .body) :
    ∃ m' < m, (u.endBody result response rest).Rank m' := by
  cases result with
  | done | error => exact hrank.below_of_pc ht hresponses.symm hpc .sent rfl (by decide)
  | blocked | more => exact hrank.below_of_pc ht hresponses.symm hpc .finished rfl (by decide)

/-- A round of sending a body lowers the rank. -/
theorem Rank.writeBody {s : WritePass} {m : ℕ ×ₗ ℕ ×ₗ ℕ} {env : WriteEnv}
    {response : HttpResponse} {rest : List HttpResponse} (hrank : s.Rank m)
    (ht : (s.writeBody env response rest).Proper) (hpc : s.pc = .body)
    (hresponses : s.conn.pendingResponses = response :: rest) (hdata : response.body.HasData)
    (hprogress : env.Progresses) : ∃ m' < m, (s.writeBody env response rest).Rank m' := by
  have hlength : s.conn.pendingResponses.length = rest.length + 1 := by
    rw [hresponses, List.length_cons]
  rcases writeBody_cases s env rest hdata with ⟨_, hround⟩ |
    ⟨offered, hne, hpre, ⟨n, henv, hround | ⟨_, hround⟩⟩ | ⟨_, hround⟩ | ⟨_, hround⟩⟩ |
    ⟨_, hround⟩
  · rw [hround] at ht ⊢
    exact hrank.endBody ht hlength hpc
  · obtain ⟨k, bs, hholds, rfl⟩ := hrank
    rw [hround]
    refine ⟨_, ?_, k, bs, hholds, rfl⟩
    have hn : n ≠ 0 := fun hzero => hprogress (by rw [henv, hzero])
    have hlt := length_drop_lt hne hpre hn
    rw [hlength]
    apply Prod.Lex.toLex_lt_toLex.mpr
    refine Or.inr ⟨rfl, Prod.Lex.toLex_lt_toLex.mpr (Or.inr ⟨rfl, ?_⟩)⟩
    simp only [work, hpc, hresponses]
    rw [HttpBody.remaining_advance]
    exact hlt
  · rw [hround] at ht ⊢
    exact hrank.endBody ht hlength hpc
  · rw [hround] at ht ⊢
    exact hrank.endBody ht hlength hpc
  · rw [hround] at ht ⊢
    exact hrank.endBody ht hlength hpc
  · rw [hround] at ht ⊢
    exact hrank.endBody ht hlength hpc

/-- Taking up a response lowers the rank. -/
theorem Rank.takeUp {s : WritePass} {env : WriteEnv} {m : ℕ ×ₗ ℕ ×ₗ ℕ} {response : HttpResponse}
    {rest : List HttpResponse} (hrank : s.Rank m) (hpc : s.pc = .loop)
    (ht : (s.takeUp env.date response rest).Proper) (hfirst : s.conn.pendingWrites.first = none)
    (hresponses : s.conn.pendingResponses = response :: rest)
    (hwrite : httpResponseWrite env.date response ≠ none) :
    ∃ m' < m, (s.takeUp env.date response rest).Rank m' := by
  rcases takeUp_cases env.date (Or.inl hfirst) hresponses with ⟨hcrash, _⟩ |
    ⟨_, htake⟩ | ⟨_, _, _, _, _, _, _, _, htake⟩
  · exact absurd hcrash hwrite
  · rw [htake] at ht ⊢
    exact hrank.below_of_pc ht rfl hpc .drainHead rfl (by decide)
  · rw [htake] at ht ⊢
    exact hrank.below_of_pc ht (by rw [hresponses]; rfl) hpc .drainHead rfl (by decide)

/-- The test after the head was sent lowers the rank. -/
theorem Rank.afterHead {s : WritePass} {env : WriteEnv} {m : ℕ ×ₗ ℕ ×ₗ ℕ} (hrank : s.Rank m)
    (hpc : s.pc = .afterHead) (hshape : s.Shape)
    (hproper : ∀ {t : WritePass}, s.step env = some t → t.Proper) :
    ∃ t, s.step env = some t ∧ ∃ m' < m, t.Rank m' := by
  simp only [Shape, hpc] at hshape
  obtain ⟨herror, hfirst, response, rest, hresponses, hmade⟩ := hshape
  have hbelow {t : WritePass} (hstep : s.step env = some t)
      (hlength : t.conn.pendingResponses.length = rest.length + 1)
      (htpc : t.pc = .body ∨ t.pc = .sent) : ∃ t, s.step env = some t ∧ ∃ m' < m, t.Rank m' := by
    have hresponses' : t.conn.pendingResponses.length = s.conn.pendingResponses.length := by
      rw [hlength, hresponses, List.length_cons]
    rcases htpc with htpc | htpc
    · exact ⟨t, hstep, hrank.below_of_pc (hproper hstep) hresponses' hpc _ htpc (by decide)⟩
    · exact ⟨t, hstep, hrank.below_of_pc (hproper hstep) hresponses' hpc _ htpc (by decide)⟩
  have hstep := WritePass.step.eq_def s env
  simp only [hpc, hresponses, if_pos (And.intro herror hfirst)] at hstep
  rcases hmade with hbody | hdone
  · simp only [hbody] at hstep
    split at hstep
    · exact hbelow hstep rfl (Or.inr rfl)
    · exact hbelow hstep (by rw [hresponses]; rfl) (Or.inl rfl)
  · simp only [hdone] at hstep
    exact hbelow hstep (by rw [hresponses]; rfl) (Or.inr rfl)

/-- **Rank lemma.** A step that is in order and whose write makes progress lowers the
rank of a proper pass, and a proper pass that has not finished has such a step. -/
theorem Rank.step {s : WritePass} {env : WriteEnv} {m : ℕ ×ₗ ℕ ×ₗ ℕ} (hrank : s.Rank m)
    (h : s.Proper) (hok : s.StepOk env) (hprogress : env.Progresses) :
    s.pc = .finished ∨ ∃ t, s.step env = some t ∧ ∃ m' < m, t.Rank m' := by
  have hshape := h.shape
  have hproper {t : WritePass} (hstep : s.step env = some t) : t.Proper := h.step hok hstep
  cases hpc : s.pc with
  | drainFirst =>
    have hstep : s.step env = some (s.drain env.write .check) := by
      simp only [WritePass.step, hpc]
    refine Or.inr ⟨_, hstep, hrank.drain (hproper hstep) (Or.inl hpc) ?_ hprogress⟩
    rw [hpc]
    decide
  | check =>
    right
    have hstep := WritePass.step.eq_def s env
    simp only [hpc] at hstep
    by_cases hfirst : s.conn.pendingWrites.first = none
    · rw [if_pos hfirst] at hstep
      exact ⟨_, hstep, hrank.below_of_pc (hproper hstep) rfl hpc .loop rfl (by decide)⟩
    · rw [if_neg hfirst] at hstep
      exact ⟨_, hstep, hrank.below_of_pc (hproper hstep) rfl hpc .finished rfl (by decide)⟩
  | loop =>
    right
    cases hresponses : s.conn.pendingResponses with
    | nil =>
      have hstep : s.step env = some { s with pc := .finished } := by
        simp only [WritePass.step, hpc, hresponses]
      exact ⟨_, hstep, hrank.below_of_pc (hproper hstep) rfl hpc .finished rfl (by decide)⟩
    | cons response rest =>
      have hstep : s.step env = some (s.takeUp env.date response rest) := by
        simp only [WritePass.step, hpc, hresponses]
      have hfirst : s.conn.pendingWrites.first = none := by simpa only [Shape, hpc] using hshape
      simp only [StepOk, hpc, hresponses] at hok
      exact ⟨_, hstep, hrank.takeUp hpc (hproper hstep) hfirst hresponses hok.2⟩
  | drainHead =>
    have hstep : s.step env = some (s.drain env.write .afterHead) := by
      simp only [WritePass.step, hpc]
    refine Or.inr ⟨_, hstep, hrank.drain (hproper hstep) (Or.inr hpc) ?_ hprogress⟩
    rw [hpc]
    decide
  | afterHead => exact Or.inr (hrank.afterHead hpc hshape hproper)
  | body =>
    simp only [Shape, hpc] at hshape
    obtain ⟨_, response, rest, hresponses, _⟩ := hshape
    have hstep : s.step env = some (s.writeBody env response rest) := by
      simp only [WritePass.step, hpc, hresponses]
    have ht := hproper hstep
    simp only [StepOk, hpc, hresponses] at hok
    exact Or.inr ⟨_, hstep, hrank.writeBody ht hpc hresponses hok hprogress⟩
  | sent =>
    simp only [Shape, hpc] at hshape
    obtain ⟨_, response, rest, hresponses, _⟩ := hshape
    have hstep : s.step env = some (s.removeSent response rest) := by
      simp only [WritePass.step, hpc, hresponses]
    have ht := hproper hstep
    simp only [StepOk, hpc, hresponses] at hok
    refine Or.inr ⟨_, hstep, hrank.below_of_responses ht ?_⟩
    unfold removeSent
    match hsays : saysClose response with
    | none => exact absurd hsays hok
    | some true | some false => simp [hresponses]
  | finished => exact Or.inl rfl
  | aborted => simp only [Shape, hpc] at hshape

/-- The positions that the loop does not leave once a response is taken up on a
connection marked with an error. -/
def Stuck (s : WritePass) : Prop :=
  s.pc = .aborted ∨
    (s.pc = .loop ∨ s.pc = .drainHead ∨ s.pc = .afterHead) ∧ s.conn.error = true ∧
      s.conn.pendingResponses ≠ []

/-- The loop stays where it is stuck. -/
theorem Stuck.step {s t : WritePass} {env : WriteEnv} (h : s.Stuck)
    (hstep : s.step env = some t) : t.Stuck := by
  rcases h with hpc | ⟨hpc, herror, hresponses⟩
  · simp [WritePass.step, hpc] at hstep
  · obtain ⟨response, rest, hcons⟩ := List.exists_cons_of_ne_nil hresponses
    have hdrain (next : WritePc) (hs : s.pc = .loop ∨ s.pc = .drainHead ∨ s.pc = .afterHead)
        (hn : next = .loop ∨ next = .drainHead ∨ next = .afterHead) :
        (s.drain env.write next).Stuck := by
      unfold WritePass.drain
      split
      · exact Or.inl rfl
      · exact Or.inr ⟨hn, herror, hresponses⟩
      · exact Or.inr ⟨hs, herror, hresponses⟩
      · split
        · exact Or.inr ⟨hs, herror, hresponses⟩
        · exact Or.inr ⟨hn, herror, hresponses⟩
        · exact Or.inr ⟨hn, rfl, hresponses⟩
    rcases hpc with hpc | hpc | hpc
    · simp only [WritePass.step, hpc, hcons, Option.some.injEq] at hstep
      obtain rfl := hstep
      unfold WritePass.takeUp
      split
      · exact Or.inl rfl
      · exact Or.inr ⟨Or.inr (Or.inl rfl), herror, by simp⟩
      · split
        · exact Or.inl rfl
        · exact Or.inr ⟨Or.inr (Or.inl rfl), herror, by simp⟩
    · simp only [WritePass.step, hpc, Option.some.injEq] at hstep
      obtain rfl := hstep
      exact hdrain .afterHead (Or.inr (Or.inl hpc)) (Or.inr (Or.inr rfl))
    · have hif : ¬(s.conn.error = false ∧ s.conn.pendingWrites.first = none) := by simp [herror]
      simp only [WritePass.step, hpc, hcons, if_neg hif, Option.some.injEq] at hstep
      obtain rfl := hstep
      exact Or.inr ⟨Or.inl rfl, herror, hresponses⟩

/-- A drain that offers bytes records the write. -/
theorem calls_drain {s : WritePass} {outcome : WriteOutcome} {next : WritePc} {offered : Bytes}
    {l : DataBufferList} (h : s.conn.pendingWrites.drainRound outcome = .wrote offered l) :
    (s.drain outcome next).calls = s.calls ++ [.write offered outcome] := by
  unfold WritePass.drain
  rw [h]
  cases outcome <;> rfl

/-- A head write that is refused is repeated four steps later. -/
theorem writes_again {s : WritePass} (env : ℕ → WriteEnv) (h : s.Proper)
    (hpc : s.pc = .drainHead) {offered : Bytes} {l : DataBufferList}
    (hround : s.conn.pendingWrites.drainRound (env 0).write = .wrote offered l)
    (hrefused : ∀ n, (env 0).write ≠ .accept n) :
    ∃ s₁ s₂ s₃ s₄, s.step (env 0) = some s₁ ∧ s₁.step (env 1) = some s₂ ∧
      s₂.step (env 2) = some s₃ ∧ s₃.step (env 3) = some s₄ ∧ ¬NoFurtherWrite s₄.calls := by
  have hshape := h.shape
  simp only [Shape, hpc] at hshape
  obtain ⟨_, response, rest, hresponses, hmade⟩ := hshape
  obtain ⟨k, bs, hholds⟩ := h.holds
  have hafter : ∃ s₁, s.step (env 0) = some s₁ ∧ s₁.pc = .afterHead ∧
      s₁.conn.pendingWrites = s.conn.pendingWrites ∧ s₁.conn.pendingResponses = response :: rest ∧
      s₁.calls = s.calls ++ [.write offered (env 0).write] ∧
      s.conn.pendingWrites.first ≠ none := by
    have hcalls : (s.drain (env 0).write .afterHead).calls =
        s.calls ++ [.write offered (env 0).write] := calls_drain hround
    have hstep : s.step (env 0) = some (s.drain (env 0).write .afterHead) := by
      simp only [WritePass.step, hpc]
    rcases drain_cases hholds (env 0).write .afterHead with ⟨hfirst, _, _⟩ | ⟨_, _, hdrain, _⟩ |
      ⟨_, _, _, _, _, hfirst, ⟨n, hn, _⟩ | ⟨_, hdrain⟩ | ⟨_, hdrain⟩⟩
    · simp [DataBufferList.drainRound, hfirst] at hround
    · rw [hdrain] at hcalls
      simp at hcalls
    · exact absurd hn (hrefused n)
    · refine ⟨_, hstep, ?_, ?_, ?_, hcalls, hfirst⟩ <;> rw [hdrain]
      exact hresponses
    · refine ⟨_, hstep, ?_, ?_, ?_, hcalls, hfirst⟩ <;> rw [hdrain]
      exact hresponses
  obtain ⟨s₁, hstep₁, hpc₁, hwrites₁, hresponses₁, hcalls₁, hfirst⟩ := hafter
  have hstep₂ : s₁.step (env 1) = some { s₁ with pc := .loop } := by
    have hif : ¬(s₁.conn.error = false ∧ s₁.conn.pendingWrites.first = none) := by
      rw [hwrites₁]
      exact fun hand => hfirst hand.2
    simp only [WritePass.step, hpc₁, hresponses₁, if_neg hif]
  have hstep₃ : WritePass.step { s₁ with pc := .loop } (env 2) =
      some { s₁ with pc := .drainHead } := by
    simp only [WritePass.step, hresponses₁]
    exact congrArg some (takeUp_of_headMade hmade hresponses₁)
  have hstep₄ : WritePass.step { s₁ with pc := .drainHead } (env 3) =
      some (WritePass.drain { s₁ with pc := .drainHead } (env 3).write .afterHead) := rfl
  refine ⟨s₁, _, _, _, hstep₁, hstep₂, hstep₃, hstep₄, ?_⟩
  obtain ⟨l', hround'⟩ := DataBufferList.drainRound_wrote hround (env 3).write
  rw [← hwrites₁] at hround'
  have hcalls : (WritePass.drain { s₁ with pc := .drainHead } (env 3).write .afterHead).calls =
      s₁.calls ++ [.write offered (env 3).write] := calls_drain hround'
  rw [hcalls, hcalls₁]
  intro hquiet
  have hpair := (List.pairwise_append.mp hquiet).2.2 (.write offered (env 0).write) (by simp)
    (.write offered (env 3).write) (by simp)
  refine hpair ?_ trivial
  cases hwrite : (env 0).write with
  | accept n => exact absurd hwrite (hrefused n)
  | wouldBlock | hardError => trivial

end WritePass

section Ends

variable {conn : WriteConn} {script : ℕ → WriteEnv} {k : ℕ} {bs : Bytes}

/-- The pass at the next moment, where a step is made. -/
theorem passAt_succ {n : ℕ} {t : WritePass}
    (hstep : (passAt conn script n).step (script n) = some t) : passAt conn script (n + 1) = t := by
  have hnext : passAt conn script (n + 1) =
      ((passAt conn script n).step (script n)).getD (passAt conn script n) := rfl
  rw [hnext, hstep]
  rfl

/-- **Run lemma.** A pass whose steps so far were in order is proper. -/
theorem proper_passAt (hconn : conn.pendingWrites.Holds k bs) {n : ℕ}
    (hok : ∀ i < n, (passAt conn script i).StepOk (script i)) : (passAt conn script n).Proper := by
  induction n with
  | zero => exact .start hconn
  | succ n ih =>
    have h := ih fun i hi => hok i (by omega)
    cases hstep : (passAt conn script n).step (script n) with
    | none =>
      have hnext : passAt conn script (n + 1) =
          ((passAt conn script n).step (script n)).getD (passAt conn script n) := rfl
      rw [hnext, hstep]
      exact h
    | some t =>
      rw [passAt_succ hstep]
      exact h.step (hok n (by omega)) hstep

/-- A pass whose steps are in order writes nothing after a refusal and ends. -/
theorem writePassEnds_of_stepOk (hconn : conn.pendingWrites.Holds k bs)
    (hok : ∀ n, (passAt conn script n).StepOk (script n)) : WritePassEnds conn script := by
  have hproper (n : ℕ) : (passAt conn script n).Proper := proper_passAt hconn fun i _ => hok i
  refine ⟨fun n => (hproper n).quiet, fun hprogress => ?_⟩
  apply (writeMachine conn).follow_reaches WritePass.Rank (fun s => s.pc = .finished)
    ⟨k, bs, hconn, rfl⟩
  intro n m hrank
  rcases hrank.step (hproper n) (hok n) (hprogress n) with hpc | ⟨t, hstep, hbelow⟩
  · exact Or.inl hpc
  · have hnext := passAt_succ hstep
    rw [passAt] at hnext
    rw [hnext]
    exact Or.inr hbelow

/-- A pass that is stuck never finishes. -/
theorem not_finished_of_stuck {n : ℕ} (h : (passAt conn script n).Stuck) (m : ℕ) :
    (passAt conn script m).pc ≠ .finished := by
  apply (writeMachine conn).follow_avoids (fun s => s.pc = .finished) WritePass.Stuck
  · intro s env hpc
    simp only [writeMachine, WritePass.step, hpc]
  · rintro s (hpc | ⟨hpc | hpc | hpc, _⟩) <;> simp [hpc]
  · exact fun s env t hs hstep => hs.step hstep
  · exact h

/-- In a pass that ends, each step is in order if all before it are. -/
theorem stepOk_of_ends (hprogress : ∀ n, (script n).Progresses)
    (hends : WritePassEnds conn script) {n : ℕ} (h : (passAt conn script n).Proper) :
    (passAt conn script n).StepOk (script n) := by
  obtain ⟨m, hfinished⟩ := hends.2 hprogress
  have hnotStuck (i : ℕ) : ¬(passAt conn script i).Stuck := fun hstuck =>
    not_finished_of_stuck hstuck m hfinished
  have hnotAborted : (passAt conn script n).step (script n) ≠
      some { passAt conn script n with pc := .aborted } := by
    intro hstep
    apply hnotStuck (n + 1)
    rw [passAt_succ hstep]
    exact Or.inl rfl
  have hshape := h.shape
  cases hpc : (passAt conn script n).pc with
  | drainFirst | check | afterHead | finished | aborted => simp only [WritePass.StepOk, hpc]
  | drainHead =>
    simp only [WritePass.StepOk, hpc]
    intro offered l hround
    by_contra hrefused
    obtain ⟨s₁, s₂, s₃, s₄, h₁, h₂, h₃, h₄, hwrites⟩ :=
      WritePass.writes_again (fun i => script (n + i)) h hpc hround
        (fun k hk => hrefused ⟨k, hk⟩)
    rw [← passAt_succ h₁] at h₂
    rw [← passAt_succ h₂] at h₃
    rw [← passAt_succ h₃] at h₄
    apply hwrites
    rw [← passAt_succ h₄]
    exact hends.1 (n + 4)
  | loop =>
    cases hresponses : (passAt conn script n).conn.pendingResponses with
    | nil => simp only [WritePass.StepOk, hpc, hresponses]
    | cons response rest =>
      simp only [WritePass.StepOk, hpc, hresponses]
      constructor
      · by_contra herror
        apply hnotStuck n
        exact Or.inr ⟨Or.inl hpc, by simpa using herror, by simp [hresponses]⟩
      · intro hcrash
        apply hnotAborted
        simp only [WritePass.step, hpc, hresponses, WritePass.takeUp, hcrash]
  | body =>
    simp only [WritePass.Shape, hpc] at hshape
    obtain ⟨_, response, rest, hresponses, _⟩ := hshape
    simp only [WritePass.StepOk, hpc, hresponses]
    by_contra hdata
    apply hnotAborted
    simp only [WritePass.step, hpc, hresponses, WritePass.writeBody, if_neg hdata]
  | sent =>
    simp only [WritePass.Shape, hpc] at hshape
    obtain ⟨_, response, rest, hresponses, _⟩ := hshape
    simp only [WritePass.StepOk, hpc, hresponses]
    intro hsays
    apply hnotAborted
    simp only [WritePass.step, hpc, hresponses, WritePass.removeSent, hsays]

/-- **When a write pass ends.** Over every connection and script of outcomes, a pass
whose steps are all in order writes nothing after a refusal and ends; and where each
successful write accepts a byte, only such a pass does. -/
theorem writePassEnds_iff (hconn : conn.pendingWrites.Holds k bs) (script : ℕ → WriteEnv) :
    ((∀ n, (passAt conn script n).StepOk (script n)) → WritePassEnds conn script) ∧
      ((∀ n, (script n).Progresses) →
        (WritePassEnds conn script ↔ ∀ n, (passAt conn script n).StepOk (script n))) := by
  refine ⟨writePassEnds_of_stepOk hconn, fun hprogress => ⟨fun hends n => ?_,
    writePassEnds_of_stepOk hconn⟩⟩
  induction n using Nat.strong_induction_on with
  | _ n ih => exact stepOk_of_ends hprogress hends (proper_passAt hconn ih)

end Ends

/-- A connection with one interim response to send. -/
def interimConn : WriteConn :=
  ⟨.new, [httpResponseNew (httpResponseLineNew 100)], false, false⟩

/-- A socket that takes whatever it is offered. -/
def takesAll : ℕ → WriteEnv := fun _ => ⟨.accept 100, .full, false, []⟩

/-- A socket whose buffer stays full. -/
def staysFull : ℕ → WriteEnv := fun _ => ⟨.wouldBlock, .full, true, []⟩

/-- An interim response that is written at once ends its pass. -/
theorem writePassEnds_takesAll : WritePassEnds interimConn takesAll := by
  apply (writePassEnds_iff (DataBufferList.holds_nil_of_first rfl) takesAll).1
  intro n
  rcases Nat.lt_or_ge n 9 with hlt | hge
  · interval_cases n <;> first
      | exact trivial
      | exact fun _ _ _ => ⟨100, rfl⟩
      | exact ⟨rfl, by decide⟩
      | exact Option.some_ne_none false
  · have hstop : passAt interimConn takesAll n = passAt interimConn takesAll 9 :=
      (writeMachine interimConn).follow_of_stopped (fun _ => rfl) hge
    rw [hstop]
    trivial

/-- A socket whose buffer is full is offered the head of a response again and again. -/
theorem not_writePassEnds_staysFull : ¬WritePassEnds interimConn staysFull := by
  intro hends
  have hquiet := hends.1 8
  revert hquiet
  decide

end Khttp
