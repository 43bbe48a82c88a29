import Khttp.InputProgress

/-!
# Output that waits to be written

A write pass that is not done ends with a write that would have blocked, and `epoll` reports
when the socket takes bytes again. For that report `server_loop` looks for an item in the
queue of the readers, and in one that also reports bytes to read it does nothing else. Where
no report finds unsent output so, a write pass is always on its way to the output, or the
report is still to come.
-/

namespace Khttp

open Lib

/-- Something is left to send. -/
def WriteConn.HasOutput (conn : WriteConn) : Prop :=
  conn.pendingWrites.first ≠ none ∨ conn.pendingResponses ≠ []

instance (conn : WriteConn) : Decidable conn.HasOutput := instDecidableOr

/-- The bytes that `fread` delivers are none. -/
def ReadOutcome.delivers : ReadOutcome → Bool
  | .full => true
  | .short k => 0 < k
  | .failed => false

namespace WritePass

variable {s t : WritePass} {env : WriteEnv}

/-- Nothing waits behind a head that has been sent, and the loop does not end with a rest. -/
def Keeps (s : WritePass) : Prop :=
  match s.pc with
  | .body | .sent => s.conn.pendingWrites.first = none
  | .loop => s.conn.pendingWrites.first = none ∨ s.conn.pendingResponses ≠ []
  | _ => True

/-- The pass is not about to end. -/
def GoesOn (s : WritePass) : Prop :=
  match s.pc with
  | .finished => False
  | .check => s.conn.pendingWrites.first = none
  | _ => True

/-- What a step leaves behind: the pass goes on, or nothing is left, or the connection is closed
or has an error, or the step would have blocked. -/
structure Leaves (s t : WritePass) : Prop where
  /-- Why the pass may end. -/
  ends : t.GoesOn ∨ ¬t.conn.HasOutput ∨ t.conn.error = true ∨ t.conn.closed = true ∨
    ∃ offered, t.calls = s.calls ++ [.write offered .wouldBlock]
  /-- Where it goes on. -/
  keeps : t.Keeps

/-- A round of draining the pending writes. -/
theorem leaves_drain {outcome : WriteOutcome} {next : WritePc}
    (hpc : s.pc = .drainFirst ∧ next = .check ∨ s.pc = .drainHead ∧ next = .afterHead) :
    s.Leaves (s.drain outcome next) := by
  have hsame (conn : WriteConn) (calls : List SysCall) :
      s.Leaves { s with conn, calls } := by
    rcases hpc with ⟨hpc, rfl⟩ | ⟨hpc, rfl⟩
    · exact ⟨Or.inl (by simp [GoesOn, hpc]), by simp [Keeps, hpc]⟩
    · exact ⟨Or.inl (by simp [GoesOn, hpc]), by simp [Keeps, hpc]⟩
  have hkeeps (conn : WriteConn) (blocked : Bool) (calls : List SysCall) :
      Keeps ⟨conn, blocked, next, calls⟩ := by
    rcases hpc with ⟨_, rfl⟩ | ⟨_, rfl⟩ <;> trivial
  unfold drain
  split
  · exact ⟨Or.inl trivial, trivial⟩
  · next hround =>
    refine ⟨Or.inl ?_, hkeeps _ _ _⟩
    have hfirst : s.conn.pendingWrites.first = none := by
      unfold DataBufferList.drainRound at hround
      repeat' split at hround
      all_goals simp_all
    rcases hpc with ⟨_, rfl⟩ | ⟨_, rfl⟩
    · exact hfirst
    · trivial
  · exact hsame _ _
  · next offered l _ =>
    cases outcome with
    | accept => exact hsame _ _
    | wouldBlock => exact ⟨Or.inr (Or.inr (Or.inr (Or.inr ⟨offered, rfl⟩))), hkeeps _ _ _⟩
    | hardError => exact ⟨Or.inr (Or.inr (Or.inl rfl)), hkeeps _ _ _⟩

/-- A round of a body that offers nothing to `write` is one of a file that delivers nothing. -/
theorem round_noRead {body : HttpBody} {write : WriteOutcome} {read : ReadOutcome}
    {errnoAgain : Bool} {result : HttpBodyWriteResult}
    (h : body.round write read errnoAgain = .noRead result) :
    body.type = .bodyFile ∧ read.delivers = false ∧ result = HttpBody.failure errnoAgain := by
  have hoffer (offered : Bytes) (last : HttpBodyWriteResult) :
      body.offer offered last write ≠ .noRead result := by
    cases write <;> simp [HttpBody.offer]
  unfold HttpBody.round at h
  split at h
  · split at h
    · simp at h
    · exact absurd h (hoffer _ _)
    · exact absurd h (hoffer _ _)
    · next htype =>
      split at h
      · exact absurd h (hoffer _ _)
      · exact ⟨htype, rfl, (HttpBody.Round.noRead.inj h).symm⟩
      · next k =>
        split at h
        · exact absurd h (hoffer _ _)
        · next hk => exact ⟨htype, by simpa [ReadOutcome.delivers] using hk,
            (HttpBody.Round.noRead.inj h).symm⟩
  · simp at h

/-- A round of a body that offers bytes ends the body as `write` tells. -/
theorem round_wrote {body after : HttpBody} {write : WriteOutcome} {read : ReadOutcome}
    {errnoAgain : Bool} {offered : Bytes} {result : HttpBodyWriteResult}
    (h : body.round write read errnoAgain = .wrote offered after result) :
    result = .more ∨ result = .done ∨ result = .error ∨
      result = .blocked ∧ write = .wouldBlock := by
  have hoffer {bytes : Bytes} {last : HttpBodyWriteResult} (hlast : last = .more ∨ last = .done)
      (heq : body.offer bytes last write = .wrote offered after result) :
      result = .more ∨ result = .done ∨ result = .error ∨
        result = .blocked ∧ write = .wouldBlock := by
    cases write with
    | accept =>
      obtain ⟨_, _, rfl⟩ := HttpBody.Round.wrote.inj heq
      rcases hlast with rfl | rfl
      · exact Or.inl rfl
      · exact Or.inr (Or.inl rfl)
    | wouldBlock =>
      obtain ⟨_, _, rfl⟩ := HttpBody.Round.wrote.inj heq
      exact Or.inr (Or.inr (Or.inr ⟨rfl, rfl⟩))
    | hardError =>
      obtain ⟨_, _, rfl⟩ := HttpBody.Round.wrote.inj heq
      exact Or.inr (Or.inr (Or.inl rfl))
  unfold HttpBody.round at h
  split at h
  · split at h
    · simp at h
    · exact hoffer (Or.inl rfl) h
    · exact hoffer (Or.inl rfl) h
    · split at h
      · exact hoffer (Or.inl rfl) h
      · simp at h
      · split at h
        · exact hoffer (Or.inr rfl) h
        · simp at h
  · simp at h

/-- `errno` holds no `EAGAIN` of an earlier call where a file delivers nothing. -/
def ErrnoFresh (s : WritePass) (env : WriteEnv) : Prop :=
  s.pc = .body → ∀ response ∈ s.conn.pendingResponses.head?,
    response.body.type = .bodyFile → env.errnoAgain = true → env.read.delivers = true

instance (s : WritePass) (env : WriteEnv) : Decidable (s.ErrnoFresh env) :=
  inferInstanceAs (Decidable (s.pc = .body → ∀ response ∈ s.conn.pendingResponses.head?,
    response.body.type = .bodyFile → env.errnoAgain = true → env.read.delivers = true))

/-- A round of sending a body. -/
theorem leaves_writeBody {response : HttpResponse} {rest : List HttpResponse}
    (hpc : s.pc = .body) (hfirst : s.conn.pendingWrites.first = none)
    (hresponses : s.conn.pendingResponses = response :: rest) (hfresh : s.ErrnoFresh env) :
    s.Leaves (s.writeBody env response rest) := by
  unfold writeBody
  split
  · split
    · exact ⟨Or.inl trivial, hfirst⟩
    · next result hround =>
      obtain ⟨htype, hnone, rfl⟩ := round_noRead hround
      have hagain : env.errnoAgain = false := by
        by_contra hagain
        have hdelivers := hfresh hpc response (by simp [hresponses]) htype (by simpa using hagain)
        simp [hnone] at hdelivers
      rw [hagain]
      exact ⟨Or.inr (Or.inr (Or.inl rfl)), hfirst⟩
    · next offered body result hround =>
      simp only
      split
      · exact ⟨Or.inl (by simp [GoesOn, hpc]), by simpa [Keeps, hpc] using hfirst⟩
      · next hmore =>
        rcases (round_wrote hround).resolve_left hmore with rfl | rfl | ⟨rfl, hblocks⟩
        · exact ⟨Or.inl trivial, hfirst⟩
        · exact ⟨Or.inr (Or.inr (Or.inl rfl)), hfirst⟩
        · exact ⟨Or.inr (Or.inr (Or.inr (Or.inr ⟨offered, by rw [hblocks]; rfl⟩))), trivial⟩
  · exact ⟨Or.inl trivial, trivial⟩

/-- A pass without output goes on where it takes a step. -/
theorem goesOn_of_noOutput (hnone : ¬s.conn.HasOutput) (h : s.step env = some t) : s.GoesOn := by
  unfold GoesOn
  split
  · next hpc => simp [step, hpc] at h
  · by_contra hfirst
    exact hnone (Or.inl hfirst)
  · trivial

/-- What a step of a pass that goes on leaves behind. -/
theorem leaves_of_step (hgoes : s.GoesOn) (hkeeps : s.Keeps) (hfresh : s.ErrnoFresh env)
    (h : s.step env = some t) : s.Leaves t := by
  cases stepCase_of_step h with
  | drain hpc => exact leaves_drain hpc
  | check hpc =>
    rw [GoesOn, hpc] at hgoes
    rw [if_pos hgoes]
    exact ⟨Or.inl trivial, Or.inl hgoes⟩
  | noResponse hpc hresponses =>
    rw [Keeps, hpc] at hkeeps
    have hfirst : s.conn.pendingWrites.first = none :=
      hkeeps.resolve_right (fun hne => hne hresponses)
    exact ⟨Or.inr (Or.inl (by simp [WriteConn.HasOutput, hfirst, hresponses])), trivial⟩
  | takeUp =>
    unfold takeUp
    repeat' split
    all_goals exact ⟨Or.inl trivial, trivial⟩
  | noBody _ _ hgone => exact ⟨Or.inl trivial, hgone.2⟩
  | headGone _ hnext hgone =>
    rcases hnext with rfl | rfl
    · exact ⟨Or.inl trivial, hgone.2⟩
    · exact ⟨Or.inl trivial, hgone.2⟩
  | again _ hresponses => exact ⟨Or.inl trivial, Or.inr (by simp [hresponses])⟩
  | writeBody hpc hresponses =>
    rw [Keeps, hpc] at hkeeps
    exact leaves_writeBody hpc hkeeps hresponses hfresh
  | removeSent hpc hresponses =>
    rw [Keeps, hpc] at hkeeps
    unfold removeSent
    split
    · exact ⟨Or.inl trivial, trivial⟩
    · exact ⟨Or.inr (Or.inr (Or.inr (Or.inl rfl))), trivial⟩
    · exact ⟨Or.inl trivial, Or.inl hkeeps⟩
  | abort => exact ⟨Or.inl trivial, trivial⟩

/-- Every step leaves nothing behind a head that has been sent. -/
theorem keeps_of_step (hkeeps : s.Keeps) (hfresh : s.ErrnoFresh env) (h : s.step env = some t) :
    t.Keeps := by
  by_cases hgoes : s.GoesOn
  · exact (leaves_of_step hgoes hkeeps hfresh h).keeps
  · unfold GoesOn at hgoes
    split at hgoes
    · next hpc => simp [step, hpc] at h
    · next hpc =>
      simp only [step, hpc, if_neg hgoes, Option.some.injEq] at h
      obtain rfl := h
      trivial
    · simp at hgoes

end WritePass

/-- The report that the main loop is about to handle, with the number of writes that had blocked
before it. -/
def MainPc.nextReport : MainPc → Option (ℕ × EventMask × ℕ)
  | .handling (.client c mask blocks :: _) => some (c, mask, blocks)
  | _ => none

namespace Server

variable {processRequest : ServerEnv → HttpRequest → Option (Option HttpResponse)}
  {errorPage : Option Bytes} {s s' : Server} {a : Action} {c : ℕ}

/-- The thread that goes on with its write pass, and what the system does. -/
def Action.writes : Action → Option (ℕ × WriteEnv)
  | .write i env => some (i, env)
  | _ => none

/-- A report of `EPOLLOUT` for the last write that would have blocked, on a connection with
unsent output, comes without `EPOLLIN` and finds no item in the queue of the readers. -/
def ReportsOutAlone (s : Server) (a : Action) : Prop :=
  a.isMain = true → ∀ report ∈ s.main.nextReport,
    report.2.1.hangsUp = false → report.2.1.epollout = true →
      report.2.2 = s.history.blocks report.1 → 0 < report.2.2 →
        (s.conns report.1).out.HasOutput →
          report.2.1.epollin = false ∧ ((s.pools .poolRead).unblockByptr report.1).2 = 0

/-- Where a file delivers nothing to a write pass, `errno` holds no `EAGAIN` of an earlier
call. -/
def ErrnoFresh (s : Server) (a : Action) : Prop :=
  ∀ write ∈ a.writes, ∀ t ∈ s.tasks[write.1]?, t.pc = .writing .body →
    (s.writePass t .body).ErrnoFresh write.2

/-- Both. -/
def ResumesOutput (s : Server) (a : Action) : Prop := s.ReportsOutAlone a ∧ s.ErrnoFresh a

instance (s : Server) (a : Action) : Decidable (s.ResumesOutput a) :=
  inferInstanceAs (Decidable ((a.isMain = true → ∀ report ∈ s.main.nextReport,
    report.2.1.hangsUp = false → report.2.1.epollout = true →
      report.2.2 = s.history.blocks report.1 → 0 < report.2.2 →
        (s.conns report.1).out.HasOutput →
          report.2.1.epollin = false ∧ ((s.pools .poolRead).unblockByptr report.1).2 = 0) ∧
    ∀ write ∈ a.writes, ∀ t ∈ s.tasks[write.1]?, t.pc = .writing .body →
      (s.writePass t .body).ErrnoFresh write.2))

/-- Unsent output of a connection without an error that nothing resumes, though the socket has
been reported to take bytes again. -/
structure OutputStuck (s : Server) (c : ℕ) : Prop where
  /-- The connection is open. -/
  isOpen : (s.conns c).out.closed = false
  /-- It has no error. -/
  noError : (s.conns c).out.error = false
  /-- It has unsent output. -/
  output : (s.conns c).out.HasOutput
  /-- A write would have blocked. -/
  blocked : 0 < s.history.blocks c
  /-- A report behind the last one of them has been handled. -/
  handled : s.history.outHandled c = s.history.blocks c
  /-- No pass is about to add a write item. -/
  noneAdded : ∀ t ∈ s.tasks, t.item.data = c → ∀ pools, t.pc = .enqueuing pools →
    .poolWrite ∉ pools
  /-- The write queue has no item for the connection that can be fetched. -/
  noItem : ∀ item ∈ (s.pools .poolWrite).list, item.data = c → item.blocked = true
  /-- No write thread holds one but behind its pass. -/
  noThread : ∀ t ∈ s.tasks, t.pool = .poolWrite → t.item.data = c →
    t.pc = .returning ∨ t.pc = .readding

/-- The passes leave nothing behind heads that have been sent. -/
def PassesKeep (s : Server) : Prop :=
  ∀ t ∈ s.tasks, ∀ pc, t.pc = .writing pc → (s.writePass t pc).Keeps

/-- Every step leaves nothing behind heads that have been sent. -/
theorem PassesKeep.of_move (hs : s.PassesKeep) (hlocks : s.LocksHeld) (hnamed : s.Named)
    (hfresh : s.ErrnoFresh a) (h : Move processRequest errorPage s a s') : s'.PassesKeep := by
  intro u hu pc hpc
  -- a thread that does not act
  have hkept {j : ℕ} (hj : s.tasks[j]? = some u) (hact : a.task ≠ some j) :
      (s'.writePass u pc).Keeps := by
    have hbefore := hs u (List.mem_of_getElem? hj) pc hpc
    have hholds : u.holds u.item.data = true := by simp [Task.holds, hpc, TaskPc.critical]
    rcases hlocks.conn_eq hnamed h hj hholds hact with hconn | hconn
    · rw [writePass, hconn]
      exact hbefore
    · rw [writePass, hconn]
      exact hbefore
  have hmoved {i : ℕ} {t : Task} {blocked : Bool} {after : TaskPc} (ha : a.task = some i)
      (htasks : s'.tasks = (s.moveTask i t blocked after).tasks)
      (hafter : after = .writing pc → (s'.writePass u pc).Keeps) :
      (s'.writePass u pc).Keeps := by
    rw [htasks] at hu
    rcases eq_or_getElem?_of_mem_moveTask hu with rfl | ⟨j, hne, hj⟩
    · exact hafter hpc
    · exact hkept hj (by rw [ha]; exact fun heq => hne (Option.some.inj heq).symm)
  have hmem (htasks : s'.tasks = s.tasks) (ha : a.task = none) : (s'.writePass u pc).Keeps := by
    rw [htasks] at hu
    obtain ⟨j, hj⟩ := List.mem_iff_getElem?.mp hu
    exact hkept hj (by simp [ha])
  cases h with
  | @fetch pool queue item =>
    rcases List.mem_append.mp hu with hold | hnew
    · obtain ⟨j, hj⟩ := List.mem_iff_getElem?.mp hold
      exact hkept hj (by simp [Action.task])
    · obtain rfl := List.mem_singleton.mp hnew
      simp at hpc
  | @lock i t ht _ _ =>
    refine hmoved rfl rfl fun hentry => ?_
    cases hpool : t.pool <;> simp [entry, hpool] at hentry
    subst hentry
    trivial
  | enqueue | resume | unlock | returnUnfinished | read | process =>
    exact hmoved rfl rfl (by simp)
  | @write i t env before pass ht hpc' hopen hpass =>
    rcases eq_or_getElem?_of_mem_moveTask hu with rfl | ⟨j, hne, hj⟩
    · obtain rfl : pass.pc = pc := TaskPc.writing.inj hpc
      have hkeeps := hs t (List.mem_of_getElem? ht) before hpc'
      have hfresh : (s.writePass t before).ErrnoFresh env := by
        intro hbody
        obtain rfl : before = .body := hbody
        exact hfresh _ rfl t ht hpc' rfl
      have hafter := WritePass.keeps_of_step hkeeps hfresh hpass
      simp only [writePass, written, Function.update_self]
      exact hafter
    · exact hkept hj (fun heq => hne (Option.some.inj heq).symm)
  | returnFinished | readd =>
    obtain ⟨j, hne, hj⟩ := List.mem_eraseIdx_iff_getElem?.mp hu
    exact hkept hj (fun heq => hne (Option.some.inj heq).symm)
  | unblock => exact hmem (unblockOr_tasks _ _ _ _ _ _) rfl
  | closeFailed => exact hmem (closeFailed_tasks _ _) rfl
  | _ => exact hmem rfl rfl

/-- The reports before the main loop are about known connections and writes that have blocked. -/
structure ReportsKnown (s : Server) : Prop where
  /-- The reports that have been handled. -/
  handled : ∀ c, s.history.outHandled c ≤ s.history.blocks c
  /-- The reports that wait. -/
  events : ∀ c mask blocks, .client c mask blocks ∈ s.main.events →
    c < s.accepted ∧ blocks ≤ s.history.blocks c
  /-- The report that is being handled. -/
  adding : ∀ c pool mask blocks events, s.main = .adding c pool mask blocks events →
    blocks ≤ s.history.blocks c

/-- The writes that have blocked are only counted up, except for a new connection. -/
theorem blocks_of_move (h : Move processRequest errorPage s a s') (hc : c ≠ s.accepted) :
    s.history.blocks c ≤ s'.history.blocks c := by
  cases h with
  | @write i t env pc pass =>
    by_cases hd : c = t.item.data
    · subst hd
      simp [written]
    · simp [written, hd]
  | unblock =>
    unfold unblockOr finishEvent
    repeat' split
    all_goals exact le_rfl
  | addAnother =>
    unfold finishEvent
    split <;> exact le_rfl
  | closeFailed =>
    unfold closeFailed
    split <;> exact le_rfl
  | accept | turnAway => simp [enlist, turnAway, sktClose, acceptSocket, hc]
  | _ => exact le_rfl

/-- Where the events before the main loop come from. -/
theorem events_of_move (h : Move processRequest errorPage s a s') {event : EpollEvent}
    (hevent : event ∈ s'.main.events) :
    event ∈ s.main.events ∨
      ∃ report, s.mayReport report = true ∧ event = s.event report ∧
        s'.history = s.history := by
  cases h with
  | startCleaning | endCleaning | closeFailed | startSweeping | skip | sweep | startWaiting | wait
  | delete => simp [atMain, MainPc.events] at hevent
  | listen hmain | hangUp hmain =>
    left
    rw [hmain]
    exact List.mem_cons_of_mem _ hevent
  | unblock hmain =>
    left
    rw [hmain]
    unfold unblockOr at hevent
    split at hevent <;> exact List.mem_cons_of_mem _ hevent
  | addFirst hmain | addAnother hmain | accept hmain | acceptNone hmain =>
    left
    rw [hmain]
    exact hevent
  | poll hmain htrue =>
    right
    obtain ⟨report, hreport, rfl⟩ := List.mem_map.mp hevent
    exact ⟨report, htrue report hreport, rfl, rfl⟩
  | _ => exact Or.inl hevent

/-- The report that the main loop goes on with comes from the events before it. -/
theorem adding_of_move (h : Move processRequest errorPage s a s') {pool : ServerPool}
    {mask : EventMask} {blocks : ℕ} {events : List EpollEvent}
    (hmain : s'.main = .adding c pool mask blocks events) :
    s.main = .adding c pool mask blocks events ∨
      s.main = .handling (.client c mask blocks :: events) ∧ s'.history = s.history := by
  cases h with
  | unblock hhandling hc hmask =>
    right
    unfold unblockOr at hmain ⊢
    split at hmain
    · next hnone =>
      obtain ⟨rfl, rfl, rfl, rfl, rfl⟩ := MainPc.adding.inj hmain
      rw [if_pos hnone]
      exact ⟨hhandling, rfl⟩
    · simp [finishEvent] at hmain
  | startCleaning | listen | hangUp | addFirst | addAnother | endCleaning | closeFailed
  | startSweeping | skip | sweep | startWaiting | wait | delete | poll | accept | acceptNone =>
    simp [atMain, finishEvent, polled, enlist] at hmain
  | _ => exact Or.inl hmain

/-- Handling a report records the writes that had blocked before it. -/
theorem handled_of_finishEvent {d : ℕ} {mask : EventMask} {blocks : ℕ} {events : List EpollEvent}
    (hs : ∀ c, s.history.outHandled c ≤ s.history.blocks c)
    (hblocks : blocks ≤ s.history.blocks d) (c : ℕ) :
    (s.finishEvent d mask blocks events).history.outHandled c ≤
      (s.finishEvent d mask blocks events).history.blocks c := by
  unfold finishEvent
  split
  · by_cases hc : c = d
    · subst hc
      simpa using hblocks
    · simpa [hc] using hs c
  · exact hs c

/-- Every step keeps to reports about known connections and writes that have blocked. -/
theorem ReportsKnown.of_move (hs : s.ReportsKnown) (hnamed : s.Named)
    (h : Move processRequest errorPage s a s') : s'.ReportsKnown := by
  refine ⟨?_, fun c mask blocks hevent => ?_, fun c pool mask blocks events hmain => ?_⟩
  · cases h with
    | @write i t env pc pass =>
      intro c
      have hle := hs.handled c
      by_cases hc : c = t.item.data
      · subst hc
        simp only [written, Function.update_self]
        omega
      · simpa [written, hc] using hle
    | unblock hmain =>
      unfold unblockOr
      split
      · exact hs.handled
      · refine handled_of_finishEvent (s := s.unblock _) hs.handled ?_
        exact (hs.events _ _ _ (by rw [hmain]; exact List.mem_cons_self)).2
    | addAnother hmain =>
      exact handled_of_finishEvent (s := s.addItem _ _) hs.handled (hs.adding _ _ _ _ _ hmain)
    | closeFailed =>
      unfold closeFailed
      split <;> exact hs.handled
    | accept | turnAway =>
      intro c
      have hle := hs.handled c
      by_cases hc : c = s.accepted
      · simp [enlist, turnAway, sktClose, acceptSocket, hc]
      · simpa [enlist, turnAway, sktClose, acceptSocket, hc] using hle
    | _ => exact hs.handled
  · rcases events_of_move h hevent with hold | ⟨report, hmay, hreport, hhistory⟩
    · obtain ⟨hlt, hle⟩ := hs.events c mask blocks hold
      exact ⟨hlt.trans_le (accepted_le_of_move h), hle.trans (blocks_of_move h (by omega))⟩
    · cases report with
      | listening => simp [event] at hreport
      | client d mask' =>
        obtain ⟨rfl, rfl, rfl⟩ := EpollEvent.client.inj hreport
        simp only [mayReport, decide_eq_true_eq] at hmay
        exact ⟨(hnamed.clients _ hmay.1).trans_le (accepted_le_of_move h), by rw [hhistory]⟩
  · rcases adding_of_move h hmain with hold | ⟨hhandling, hhistory⟩
    · have hlt := hnamed.clients c (hnamed.main c (by rw [hold]; rfl))
      exact (hs.adding c pool mask blocks events hold).trans (blocks_of_move h (by omega))
    · rw [hhistory]
      exact (hs.events c mask blocks (by rw [hhandling]; exact List.mem_cons_self)).2

/-- The thread is in a write pass that goes on, or about to add a write item. -/
def WritesOn (s : Server) (t : Task) : Prop :=
  (∃ pc, t.pc = .writing pc ∧ (s.writePass t pc).GoesOn) ∨
    ∃ pools, t.pc = .enqueuing pools ∧ .poolWrite ∈ pools

/-- A write pass is on its way to the output, or the thread that holds the mutex sees to it. -/
def WriteAttended (s : Server) (c : ℕ) : Prop :=
  s.Runnable .poolWrite c ∨ ∃ t ∈ s.tasks, t.item.data = c ∧ s.WritesOn t

/-- A write would have blocked behind the last report of `EPOLLOUT` that was handled, and the
report of it will add a write item. -/
structure Awaiting (s : Server) (c : ℕ) : Prop where
  /-- The write. -/
  blocked : s.history.outHandled c < s.history.blocks c
  /-- The report, where the main loop is at it. -/
  adding : ∀ pool mask events, s.main = .adding c pool mask (s.history.blocks c) events →
    mask.epollout = true → pool = .poolWrite

/-- A write that would have blocked is behind all reports so far. -/
theorem Awaiting.of_blocked (hs : s.ReportsKnown) (hmain : s'.main = s.main)
    (hhandled : s'.history.outHandled c = s.history.outHandled c)
    (hblocks : s.history.blocks c < s'.history.blocks c) : s'.Awaiting c := by
  refine ⟨?_, fun pool mask events hadding _ => ?_⟩
  · have hle := hs.handled c
    omega
  · have hle := hs.adding c pool mask _ events (hmain ▸ hadding)
    omega

/-- The step of a write pass that goes on leaves it going on, or the output awaits a report. -/
theorem attended_of_written {i : ℕ} {t : Task} {env : WriteEnv} {pc : WritePc} {pass : WritePass}
    (hreports : s.ReportsKnown) (hkeeps : s.PassesKeep) (hfresh : s.ErrnoFresh (.write i env))
    (ht : s.tasks[i]? = some t) (hpc : t.pc = .writing pc) (hgoes : (s.writePass t pc).GoesOn)
    (hpass : (s.writePass t pc).step env = some pass) (houtput : pass.conn.HasOutput)
    (hnoError : pass.conn.error = false) (hopen : pass.conn.closed = false) :
    (s.written i t pass).WriteAttended t.item.data ∨
      (s.written i t pass).Awaiting t.item.data := by
  have hbody : (s.writePass t pc).ErrnoFresh env := by
    intro hbody
    obtain rfl : pc = .body := hbody
    exact hfresh _ rfl t ht hpc rfl
  have hleaves := WritePass.leaves_of_step hgoes (hkeeps t (List.mem_of_getElem? ht) pc hpc)
    hbody hpass
  rcases hleaves.ends with hgoesOn | hnone | herror | hclosed | ⟨offered, hcalls⟩
  · left
    refine Or.inr ⟨_, List.mem_set (List.getElem?_eq_some_iff.mp ht).1 _, rfl,
      Or.inl ⟨pass.pc, rfl, ?_⟩⟩
    simp only [writePass, written, Function.update_self]
    exact hgoesOn
  · exact absurd houtput hnone
  · simp [hnoError] at herror
  · simp [hopen] at hclosed
  · right
    have hcalls : pass.calls = [.write offered .wouldBlock] := hcalls
    have hless : s.history.blocks t.item.data <
        (s.written i t pass).history.blocks t.item.data := by
      simp [written, hcalls, countBlocks]
    exact Awaiting.of_blocked hreports rfl rfl hless

/-- Output that a step makes is attended to by the thread that has made it. -/
theorem output_of_move (h : Move processRequest errorPage s a s') (c : ℕ)
    (houtput : (s'.conns c).out.HasOutput) :
    (s.conns c).out.HasOutput ∨ s'.WriteAttended c ∨
      ∃ i t env pc pass, a = .write i env ∧ s.tasks[i]? = some t ∧ t.item.data = c ∧
        t.pc = .writing pc ∧ (s.writePass t pc).step env = some pass ∧
        s' = s.written i t pass := by
  have hadds {i : ℕ} {t : Task} {blocked : Bool} {pools : List ServerPool}
      (ht : s.tasks[i]? = some t) (hpools : .poolWrite ∈ pools)
      (htasks : s'.tasks = (s.moveTask i t blocked (.enqueuing pools)).tasks) :
      s'.WriteAttended t.item.data := by
    refine Or.inr ⟨{ t with item := { t.item with blocked }, pc := .enqueuing pools }, ?_, rfl,
      Or.inr ⟨pools, rfl, hpools⟩⟩
    rw [htasks]
    exact List.mem_set (List.getElem?_eq_some_iff.mp ht).1 _
  have hothers (hread : ∀ i outcome n k, a ≠ .read i outcome n k)
      (hwrite : ∀ i env, a ≠ .write i env) (hprocess : ∀ i env, a ≠ .process i env) :
      (s.conns c).out.HasOutput := by
    have hconn := connMove_of_move h c
    generalize s'.conns c = conn at hconn houtput
    cases hconn with
    | same => exact houtput
    | closed => exact houtput
    | accepted =>
      simp [WriteConn.HasOutput, ServerConnection.new, DataBufferList.new] at houtput
    | read => exact absurd rfl (hread _ _ _ _)
    | write => exact absurd rfl (hwrite _ _)
    | process => exact absurd rfl (hprocess _ _)
  cases h with
  | @read i t outcome n k pass ht hpc hmay hinput hpass =>
    by_cases hc : c = t.item.data
    · subst hc
      have hout : pass.conn.out.HasOutput := by simpa [readDone] using houtput
      cases hmove : readMove_of_serverLoopRead hpass with
      | refused | interim => exact Or.inr (Or.inl (hadds ht (by simp) rfl))
      | wouldBlock | failed | eof | complete | kept => exact Or.inl hout
    · exact Or.inl (by simpa [readDone, hc] using houtput)
  | @write i t env pc pass ht hpc hopen hpass =>
    by_cases hc : c = t.item.data
    · subst hc
      exact Or.inr (Or.inr ⟨i, t, env, pc, pass, rfl, ht, rfl, hpc, hpass, rfl⟩)
    · exact Or.inl (by simpa [written, hc] using houtput)
  | @process i t env conn response ht hpc hworker =>
    by_cases hc : c = t.item.data
    · subst hc
      exact Or.inr (Or.inl (hadds ht (by simp) rfl))
    · exact Or.inl (by simpa [processed, hc] using houtput)
  | _ => exact Or.inl (hothers (by simp) (by simp) (by simp))

/-- Output without an error on an open connection is attended to, or awaits a report. -/
def OutputAttended (s : Server) (c : ℕ) : Prop :=
  (s.conns c).out.HasOutput → (s.conns c).out.closed = false → (s.conns c).out.error = false →
    s.WriteAttended c ∨ s.Awaiting c

/-- What the proofs about output rest on. -/
structure OutputBase (s : Server) : Prop where
  /-- The names in use. -/
  named : s.Named
  /-- The mutexes. -/
  locks : s.LocksHeld
  /-- The connections that are cleaned up. -/
  cleans : s.CleansClosed
  /-- The passes. -/
  keeps : s.PassesKeep
  /-- The reports. -/
  reports : s.ReportsKnown

/-- Every step keeps what the proofs rest on. -/
theorem OutputBase.of_move (hs : s.OutputBase) (hfresh : s.ErrnoFresh a)
    (h : Move processRequest errorPage s a s') : s'.OutputBase :=
  ⟨hs.named.of_move h, hs.locks.of_move hs.named h, hs.cleans.of_move h,
    hs.keeps.of_move hs.locks hs.named hfresh h, hs.reports.of_move hs.named h⟩

/-- A thread that writes on and acts goes on doing so, or has added a write item, or the output
awaits a report. -/
theorem attended_of_acts (hs : s.OutputBase) (hgood : s.ErrnoFresh a)
    (h : Move processRequest errorPage s a s') {i : ℕ} {t : Task} (ha : a.task = some i)
    (ht : s.tasks[i]? = some t) (hwrites : s.WritesOn t) : s'.OutputAttended t.item.data := by
  intro houtput hopen hnoError
  rcases hwrites with ⟨pc, hpc, hgoes⟩ | ⟨pools, hpc, hmem⟩
  · rcases write_of_move h ha ht hpc with rfl | ⟨env, pass, rfl, rfl, hpass⟩
    · exact hgoes.elim
    · simp only [written, Function.update_self] at houtput hopen hnoError
      exact attended_of_written hs.reports hs.keeps hgood ht hpc hgoes hpass houtput hnoError hopen
  · left
    cases pools with
    | nil => simp at hmem
    | cons pool pools =>
      obtain rfl := enqueue_of_move h ha ht hpc
      by_cases hpool : pool = .poolWrite
      · subst hpool
        exact Or.inl (runnable_enqueue _ _ _ _ _)
      · have htail : .poolWrite ∈ pools := by simpa [Ne.symm hpool] using hmem
        exact Or.inr ⟨_, List.mem_set (List.getElem?_eq_some_iff.mp ht).1 _, rfl,
          Or.inr ⟨pools, rfl, htail⟩⟩

/-- A thread that writes on and does not act goes on doing so. -/
theorem writesOn_of_not_acts (hs : s.OutputBase) (h : Move processRequest errorPage s a s') {i : ℕ}
    {t : Task} (ha : a.task ≠ some i) (ht : s.tasks[i]? = some t) (hwrites : s.WritesOn t) :
    t ∈ s'.tasks ∧ s'.WritesOn t := by
  have hholds : t.holds t.item.data = true := by
    rcases hwrites with ⟨pc, hpc, _⟩ | ⟨pools, hpc, _⟩ <;> simp [Task.holds, TaskPc.critical, hpc]
  constructor
  · refine (mem_tasks_of_move h (List.mem_of_getElem? ht)).resolve_right ?_
    rintro ⟨j, hj, hjt⟩
    have hji := hs.locks.index_eq (c := t.item.data) hjt ht hholds hholds
    exact ha (hji ▸ hj)
  · rcases hwrites with ⟨pc, hpc, hgoes⟩ | hadds
    · refine Or.inl ⟨pc, hpc, ?_⟩
      rcases hs.locks.conn_eq hs.named h ht hholds ha with hconn | hconn
      · rw [writePass, hconn]
        exact hgoes
      · rw [writePass, hconn]
        exact hgoes
    · exact Or.inr hadds

/-- A thread that writes on goes on doing so, or has added a write item, or the output awaits a
report. -/
theorem attended_of_writesOn (hs : s.OutputBase) (hgood : s.ErrnoFresh a)
    (h : Move processRequest errorPage s a s') {t : Task} (ht : t ∈ s.tasks)
    (hwrites : s.WritesOn t) : s'.OutputAttended t.item.data := by
  obtain ⟨i, hi⟩ := List.mem_iff_getElem?.mp ht
  by_cases ha : a.task = some i
  · exact attended_of_acts hs hgood h ha hi hwrites
  · intro _ _ _
    obtain ⟨hstays, hwrites⟩ := writesOn_of_not_acts hs h ha hi hwrites
    exact Or.inl (Or.inr ⟨t, hstays, rfl, hwrites⟩)

/-- Every step keeps a write pass on its way to the output, or the output awaits a report. -/
theorem WriteAttended.of_move (hattended : s.WriteAttended c) (hs : s.OutputBase)
    (hgood : s.ErrnoFresh a) (h : Move processRequest errorPage s a s') :
    s'.OutputAttended c := by
  rcases hattended with hrunnable | ⟨t, ht, rfl, hwrites⟩
  · intro houtput hopen hnoError
    rcases hrunnable.of_move h with hstays | ⟨i, t, ht, hpool, rfl, rfl⟩ | ⟨pools, clients, hmain⟩
    · exact Or.inl (Or.inl hstays)
    · left
      right
      obtain ⟨u, hu, _, hdata, hpc⟩ := exists_locked ht
      rw [hpool] at hpc
      exact ⟨u, hu, hdata, Or.inl ⟨.drainFirst, hpc, trivial⟩⟩
    · have hclosed := hs.cleans c (by rw [hmain]; rfl)
      rcases (connMove_of_move h c).closed_or hclosed with hstays | ⟨_, fd, added, rfl⟩
      · simp [hopen] at hstays
      · cases h <;> simp_all
  · exact attended_of_writesOn hs hgood h ht hwrites

/-- A connection whose name is given out has no output. -/
theorem noOutput_accepted {fd : ℕ} {added : Bool}
    (h : Move processRequest errorPage s (.accept fd added) s') :
    ¬(s'.conns s.accepted).out.HasOutput := by
  cases h with
  | accept =>
    simp [enlist, acceptSocket, WriteConn.HasOutput, ServerConnection.new, DataBufferList.new]
  | turnAway =>
    simp [turnAway, sktClose, acceptSocket, WriteConn.HasOutput, ServerConnection.new,
      DataBufferList.new]

/-- A report of a connection whose output awaits one is not the last that counts, or the main
loop will add a write item. -/
theorem Awaiting.of_unblock (hs : s.Awaiting c) (hreports : s.ReportsKnown)
    (hgood : s.ReportsOutAlone .main) (houtput : (s.conns c).out.HasOutput) {d blocks : ℕ}
    {mask : EventMask} {events : List EpollEvent}
    (hmain : s.main = .handling (.client d mask blocks :: events)) (hmask : mask.hangsUp = false) :
    (s.unblockOr mask.pool d mask blocks events).Awaiting c := by
  have hless := hs.blocked
  have halone (hd : d = c) (hout : mask.epollout = true) (hlast : blocks = s.history.blocks c) :
      mask.epollin = false ∧ ((s.pools .poolRead).unblockByptr d).2 = 0 := by
    subst hd
    have hpos : 0 < blocks := by omega
    exact hgood rfl (d, mask, blocks) (by rw [hmain]; rfl) hmask hout hlast hpos houtput
  unfold unblockOr
  split
  · refine ⟨hless, fun pool mask' events' hadding hout => ?_⟩
    obtain ⟨hd, rfl, rfl, hlast, rfl⟩ := MainPc.adding.inj hadding
    simp [EventMask.pool, (halone hd hout hlast).1]
  · next hfound =>
    refine ⟨?_, fun pool mask' events' hadding => by simp [finishEvent] at hadding⟩
    unfold finishEvent
    split
    · next hout =>
      by_cases hd : c = d
      · have hle := (hreports.events d mask blocks (by rw [hmain]; exact List.mem_cons_self)).2
        have hne : blocks ≠ s.history.blocks c := fun hlast =>
          hfound (halone hd.symm hout hlast).2
        subst hd
        simp only [unblock, Function.update_self]
        omega
      · simpa [unblock, hd] using hless
    · exact hless

/-- The main loop adds a write item for output that awaits a report, or another report will
come. -/
theorem Awaiting.of_addAnother (hs : s.Awaiting c) (hreports : s.ReportsKnown) {d blocks : ℕ}
    {pool : ServerPool} {mask : EventMask} {events : List EpollEvent}
    (hmain : s.main = .adding d pool mask blocks events) :
    ((s.addItem pool d).finishEvent d mask blocks events).WriteAttended c ∨
      ((s.addItem pool d).finishEvent d mask blocks events).Awaiting c := by
  have hless := hs.blocked
  by_cases hlast : d = c ∧ mask.epollout = true ∧ blocks = s.history.blocks c
  · left
    obtain ⟨rfl, hout, rfl⟩ := hlast
    obtain rfl := hs.adding pool mask events hmain hout
    exact Or.inl (Or.inl ⟨⟨s.nextItem, false, d⟩, by simp [finishEvent, addItem], rfl, rfl⟩)
  · right
    refine ⟨?_, fun pool mask' events' hadding => by simp [finishEvent] at hadding⟩
    unfold finishEvent
    split
    · next hout =>
      by_cases hd : c = d
      · have hle := hreports.adding d pool mask blocks events hmain
        have hne : blocks ≠ s.history.blocks c := fun heq => hlast ⟨hd.symm, hout, heq⟩
        subst hd
        simp only [addItem, Function.update_self]
        omega
      · simpa [addItem, hd] using hless
    · exact hless

/-- Output that awaits a report goes on doing so, or a write pass is on its way to it. -/
theorem Awaiting.of_move (hs : s.Awaiting c) (hreports : s.ReportsKnown)
    (hgood : s.ReportsOutAlone a) (houtput : (s.conns c).out.HasOutput)
    (h : Move processRequest errorPage s a s') : s'.OutputAttended c := by
  intro houtput' _ _
  have hless := hs.blocked
  have hold (hc : c = s.accepted) {fd : ℕ} {added : Bool} (ha : a = .accept fd added) : False := by
    subst hc ha
    exact noOutput_accepted h houtput'
  -- the main loop goes on, and is at no report afterwards
  have hquiet (hhandled : s'.history.outHandled c = s.history.outHandled c)
      (hblocks : s'.history.blocks c = s.history.blocks c)
      (hmain : ∀ pool mask blocks events, s'.main ≠ .adding c pool mask blocks events) :
      s'.WriteAttended c ∨ s'.Awaiting c :=
    Or.inr ⟨by omega, fun pool mask events hadding => absurd hadding (hmain pool mask _ events)⟩
  have hsame (hmain : s'.main = s.main)
      (hhandled : s'.history.outHandled c = s.history.outHandled c)
      (hblocks : s'.history.blocks c = s.history.blocks c) :
      s'.WriteAttended c ∨ s'.Awaiting c := by
    refine Or.inr ⟨by omega, fun pool mask events hadding => ?_⟩
    rw [hmain, hblocks] at hadding
    exact hs.adding pool mask events hadding
  cases h with
  | @write i t env pc pass =>
    by_cases hmore : s.history.blocks c < (s.written i t pass).history.blocks c
    · exact Or.inr (Awaiting.of_blocked hreports rfl rfl hmore)
    · refine hsame rfl rfl ?_
      by_cases hc : c = t.item.data
      · subst hc
        simp only [written, Function.update_self] at hmore ⊢
        omega
      · simp [written, hc]
  | unblock hmain _ hmask => exact Or.inr (hs.of_unblock hreports hgood houtput hmain hmask)
  | addAnother hmain => exact hs.of_addAnother hreports hmain
  | closeFailed =>
    refine hquiet ?_ ?_ (by simp [atMain])
    all_goals
      unfold closeFailed
      split <;> rfl
  | @accept fd events =>
    have hc : c ≠ s.accepted := fun hc => hold hc rfl
    refine Or.inr ⟨?_, fun pool mask events hadding => by simp [enlist] at hadding⟩
    simpa [enlist, acceptSocket, hc] using hless
  | @turnAway fd events =>
    have hc : c ≠ s.accepted := fun hc => hold hc rfl
    refine hsame rfl ?_ ?_ <;> simp [turnAway, sktClose, acceptSocket, hc]
  | startCleaning | listen | hangUp | addFirst | endCleaning | startSweeping | skip | sweep
  | startWaiting | wait | delete | poll | acceptNone =>
    exact hquiet rfl rfl (by simp [atMain, polled])
  | _ => exact hsame rfl rfl rfl

/-- Steps whose reports find no unsent output unseen keep a write pass on its way to it. -/
theorem OutputAttended.of_move (hs : s.OutputAttended c) (hbase : s.OutputBase)
    (hgood : s.ResumesOutput a) (h : Move processRequest errorPage s a s') :
    s'.OutputAttended c := by
  intro houtput' hopen' hnoError'
  by_cases hnew : c = s.accepted ∧ ∃ fd added, a = .accept fd added
  · obtain ⟨rfl, fd, added, rfl⟩ := hnew
    exact absurd houtput' (noOutput_accepted h)
  · have hconn := connMove_of_move h c
    obtain ⟨hopen, hnoError⟩ := hconn.sound_before hnew hopen' hnoError'
    by_cases houtput : (s.conns c).out.HasOutput
    · rcases hs houtput hopen hnoError with hattended | hawaiting
      · exact hattended.of_move hbase hgood.2 h houtput' hopen' hnoError'
      · exact hawaiting.of_move hbase.reports hgood.1 houtput h houtput' hopen' hnoError'
    · rcases output_of_move h c houtput' with hold | hattended |
        ⟨i, t, env, pc, pass, rfl, ht, rfl, hpc, hpass, rfl⟩
      · exact absurd hold houtput
      · exact Or.inl hattended
      · have hgoes : (s.writePass t pc).GoesOn :=
          WritePass.goesOn_of_noOutput houtput hpass
        simp only [written, Function.update_self] at houtput' hopen' hnoError'
        exact attended_of_written hbase.reports hbase.keeps hgood.2 ht hpc hgoes hpass houtput'
          hnoError' hopen'

/-- The server starts with what the proofs rest on. -/
theorem outputBase_of_start : OutputBase .start := by
  refine ⟨named_of_start, fun c => rfl, fun c hmain => ?_, fun t ht => ?_,
    ⟨fun c => le_rfl, ?_, ?_⟩⟩
  · simp [Server.start, MainPc.cleans] at hmain
  · simp [Server.start] at ht
  · simp [Server.start, MainPc.events]
  · simp [Server.start]

/-- In every run whose reports find no unsent output unseen, and where files that deliver nothing
find `errno` fresh, no output is stuck. -/
theorem not_outputStuck_of_meets {as : List Action} {s : Server}
    (hmeets : (machineWith processRequest errorPage).Meets ResumesOutput .start as)
    (hrun : (machineWith processRequest errorPage).run as = some s) (c : ℕ) : ¬s.OutputStuck c := by
  have hinv : s.OutputAttended c ∧ s.OutputBase ∧ ∀ t ∈ s.tasks, t.Placed := by
    refine (machineWith processRequest errorPage).invariant ResumesOutput
      (fun s => s.OutputAttended c ∧ s.OutputBase ∧ ∀ t ∈ s.tasks, t.Placed) ?_ ?_ hmeets hrun
    · rintro s a t ⟨hattended, hbase, hplaced⟩ hgood hstep
      have hmove := move_of_step hstep
      exact ⟨hattended.of_move hbase hgood hmove, hbase.of_move hgood.2 hmove,
        placed_of_move hplaced hmove⟩
    · refine ⟨fun _ hopen => ?_, outputBase_of_start, by simp [Server.start]⟩
      simp [Server.start] at hopen
  intro hstuck
  -- a write thread that has not ended its pass
  have hnone {t : Task} (ht : t ∈ s.tasks) (hpool : t.pool = .poolWrite) (hdata : t.item.data = c)
      (hreturning : t.pc ≠ .returning) (hreadding : t.pc ≠ .readding) : False :=
    (hstuck.noThread t ht hpool hdata).elim hreturning hreadding
  rcases hinv.1 hstuck.output hstuck.isOpen hstuck.noError with
    ((⟨item, hitem, hdata, hblocked⟩ | ⟨t, ht, hpool, hdata, hpc⟩) |
      ⟨t, ht, hdata, ⟨pc, hpc, _⟩ | ⟨pools, hpc, hmem⟩⟩) | hawaiting
  · simp [hstuck.noItem item hitem hdata] at hblocked
  · exact hnone ht hpool hdata (by simp [hpc]) (by simp [hpc])
  · have hplaced := hinv.2.2 t ht
    rw [Task.Placed, hpc] at hplaced
    exact hnone ht hplaced hdata (by simp [hpc]) (by simp [hpc])
  · exact hstuck.noneAdded t ht hdata pools hpc hmem
  · have hless := hawaiting.blocked
    rw [hstuck.handled] at hless
    omega

/-- A client connects, a read thread fetches the first item, and the client sends five bytes. -/
def firstBytes : List Action :=
  [.poll [.listening], .main, .accept 5 true, .main, .acceptNone, .main, .main, .main, .main,
    .fetch .poolRead, .arrive 0 5]

/-- The bytes are reported while their item is in process, and a second item is added. -/
def reportIn : List Action :=
  [.poll [.client 0 ⟨false, false, true, false⟩], .main, .main, .main, .main, .main, .main]

/-- The bytes are answered with an error response. -/
def refusedPass : List Action :=
  [.tick 0, .read 0 (.data ⟨[], false, false, ascii "invalid HTTP method"⟩) 5 1,
    .tick 0, .tick 0, .tick 0]

/-- A read pass that finds no bytes leaves its item blocked in the queue. -/
def idlePass : List Action :=
  [.fetch .poolRead, .tick 0, .read 0 .wouldBlock 0 1, .tick 0, .tick 0, .tick 0]

/-- A write pass sends the head, and the body would block. -/
def bodyBlocks : List Action :=
  [.fetch .poolWrite, .tick 0] ++
    List.replicate 6 (.write 0 ⟨.accept 10000, .full, false, []⟩) ++
    List.replicate 2 (.write 0 ⟨.wouldBlock, .full, false, []⟩) ++ [.tick 0, .tick 0]

/-- The socket takes bytes again. -/
def reportOut : List Action :=
  [.poll [.client 0 ⟨false, false, false, true⟩], .main, .main]

/-- Without an item in the queue of the readers the report adds a write item. -/
theorem not_outputStuck_noReader : ∃ s,
    (serverMachine (configServerNew []) none).run
      (firstBytes ++ refusedPass ++ bodyBlocks ++ reportOut) = some s ∧
      (s.conns 0).out.HasOutput ∧ s.history.blocks 0 = 1 ∧ s.history.outHandled 0 = 1 ∧
      ¬s.OutputStuck 0 := by
  have hstate : ((serverMachine (configServerNew []) none).run
      (firstBytes ++ refusedPass ++ bodyBlocks ++ reportOut)).map (fun s =>
        (decide (s.conns 0).out.HasOutput, s.history.blocks 0, s.history.outHandled 0)) =
          some (true, 1, 1) := by decide +kernel
  obtain ⟨s, hrun, hs⟩ := Option.map_eq_some_iff.mp hstate
  simp only [Prod.mk.injEq, decide_eq_true_eq] at hs
  obtain ⟨houtput, hblocks, hhandled⟩ := hs
  exact ⟨s, hrun, houtput, hblocks, hhandled, not_outputStuck_of_meets (by decide +kernel) hrun 0⟩

/-- With the item of an idle reader there the report adds none, and the body stays unsent. -/
theorem outputStuck_idleReader : ∃ s,
    (serverMachine (configServerNew []) none).run
      (firstBytes ++ reportIn ++ refusedPass ++ idlePass ++ bodyBlocks ++ reportOut) = some s ∧
      (serverMachine (configServerNew []) none).Meets EdgeTriggered .start
        (firstBytes ++ reportIn ++ refusedPass ++ idlePass ++ bodyBlocks ++ reportOut) ∧
      s.OutputStuck 0 := by
  have hthreads : ((serverMachine (configServerNew []) none).run
      (firstBytes ++ reportIn ++ refusedPass ++ idlePass ++ bodyBlocks ++ reportOut)).map
        (fun s => (s.tasks, (s.pools .poolWrite).list)) = some ([], []) := by decide +kernel
  have hconn : ((serverMachine (configServerNew []) none).run
      (firstBytes ++ reportIn ++ refusedPass ++ idlePass ++ bodyBlocks ++ reportOut)).map
        (fun s => ((s.conns 0).out.closed, (s.conns 0).out.error,
          decide (s.conns 0).out.HasOutput, s.history.blocks 0, s.history.outHandled 0)) =
            some (false, false, true, 1, 1) := by decide +kernel
  obtain ⟨s, hrun, hs⟩ := Option.map_eq_some_iff.mp hthreads
  simp only [hrun, Option.map_some, Option.some.injEq, Prod.mk.injEq, decide_eq_true_eq] at hs hconn
  obtain ⟨htasks, hlist⟩ := hs
  obtain ⟨hclosed, herror, houtput, hblocks, hhandled⟩ := hconn
  exact ⟨s, hrun, by decide +kernel, hclosed, herror, houtput, by omega, by omega, by simp [htasks],
    by simp [hlist], by simp [htasks]⟩

end Server

end Khttp
