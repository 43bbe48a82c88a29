import Khttp.ServerThreads
import Mathlib.Data.List.Forall2

/-!
# One response for each request

Read passes append requests and queue an item for the workers. A worker that has locked the
connection answers the pending requests one after the other, so that items and requests are
not one to one: later items find nothing. The requests are answered in their order, and
while one is pending a worker is on its way.
-/

namespace Khttp

open Lib

/-- The thread will look at the pending requests itself or call for a worker. -/
def Task.Attends (t : Task) : Prop :=
  (t.pool = .poolWorker ∧ (t.pc = .working ∨ ∃ pools, t.pc = .enqueuing pools)) ∨
    ∃ pools, t.pc = .enqueuing pools ∧ .poolWorker ∈ pools

namespace Server

variable {processRequest : ServerEnv → HttpRequest → Option (Option HttpResponse)}
  {errorPage : Option Bytes} {s s' : Server} {a : Action} {c : ℕ}

/-- The requests appended so far are those that are pending behind those that have been
answered, and these have one response each, in order. -/
def AnsweredInOrder (processRequest : ServerEnv → HttpRequest → Option (Option HttpResponse))
    (errorPage : Option Bytes) (s : Server) (c : ℕ) : Prop :=
  ∃ answered, s.history.requests c = answered ++ (s.conns c).pendingRequests ∧
    List.Forall₂ (Answers processRequest errorPage) answered (s.history.answers c)

/-- The requests that a read pass appends are pending behind the others. -/
theorem pendingRequests_of_readMove {conn : ServerConnection} {outcome : SocketRead}
    {pass : ReadPass} (h : ReadMove conn outcome pass) :
    pass.conn.pendingRequests = conn.pendingRequests ++ pass.appended := by
  cases h <;> simp

/-- The pending requests where the outgoing side of a connection changes. -/
theorem pendingRequests_update_out (conns : ℕ → ServerConnection) (d c : ℕ) (out : WriteConn) :
    (Function.update conns d { conns d with out } c).pendingRequests =
      (conns c).pendingRequests := by
  by_cases hc : c = d
  · subst hc
    simp
  · simp [hc]

/-- The requests and responses of a connection are as they were. -/
structure RequestsSame (s s' : Server) (c : ℕ) : Prop where
  /-- The requests that were appended. -/
  requests : s'.history.requests c = s.history.requests c
  /-- The responses of the workers. -/
  answers : s'.history.answers c = s.history.answers c
  /-- The responses that were appended. -/
  appended : s'.history.appended c = s.history.appended c
  /-- The inputs of the pending requests. -/
  causes : s'.history.causes c = s.history.causes c
  /-- The last input. -/
  input : s'.input c = s.input c
  /-- The pending requests. -/
  pending : (s'.conns c).pendingRequests = (s.conns c).pendingRequests

/-- What a step does to the requests and responses of a connection. -/
inductive RequestMove (processRequest : ServerEnv → HttpRequest → Option (Option HttpResponse))
    (errorPage : Option Bytes) (s : Server) (c : ℕ) : Action → Server → Prop
  /-- Nothing. -/
  | same {a : Action} {s' : Server} (hsame : s.RequestsSame s' c) :
      RequestMove processRequest errorPage s c a s'
  /-- The connection is new and has none. -/
  | accepted {a : Action} {s' : Server} (hrequests : s'.history.requests c = [])
      (hanswers : s'.history.answers c = []) (happended : s'.history.appended c = [])
      (hcauses : s'.history.causes c = []) (hpending : (s'.conns c).pendingRequests = []) :
      RequestMove processRequest errorPage s c a s'
  /-- A read pass. -/
  | read {i n k : ℕ} {t : Task} {outcome : SocketRead} {pass : ReadPass}
      (ht : s.tasks[i]? = some t) (hdata : t.item.data = c) (hinput : s.input t.item.data ≤ k)
      (hpass : ReadMove (s.conns t.item.data) outcome pass) :
      RequestMove processRequest errorPage s c (.read i outcome n k)
        (s.readDone i t outcome n k pass)
  /-- A worker answers a request. -/
  | process {i : ℕ} {t : Task} {env : ServerEnv} {request : HttpRequest}
      {pending : List HttpRequest} {response : HttpResponse} (ht : s.tasks[i]? = some t)
      (hpc : t.pc = .working) (hdata : t.item.data = c)
      (hpending : (s.conns t.item.data).pendingRequests = request :: pending)
      (hanswer : Answers processRequest errorPage request response) :
      RequestMove processRequest errorPage s c (.process i env)
        (s.processed i t (({ s.conns t.item.data with pendingRequests := pending } :
          ServerConnection).appendResponse response) response)

/-- A step does one of these things to the requests and responses of each connection. -/
theorem requestMove_of_move (h : Move processRequest errorPage s a s') (c : ℕ) :
    RequestMove processRequest errorPage s c a s' := by
  cases h with
  | @read i t outcome n k pass ht hpc hmay hinput hpass =>
    by_cases hc : c = t.item.data
    · exact .read ht hc.symm hinput (readMove_of_serverLoopRead hpass)
    · refine .same ⟨?_, rfl, ?_, ?_, ?_, ?_⟩ <;> simp [readDone, hc]
  | @process i t env conn response ht hpc hworker =>
    obtain ⟨request, pending, hpending, rfl, hanswer⟩ := serverLoopWorker_cases hworker
    by_cases hc : c = t.item.data
    · exact .process ht hpc hc.symm hpending hanswer
    · refine .same ⟨rfl, ?_, ?_, ?_, rfl, ?_⟩ <;> simp [processed, hc]
  | write | hangUp =>
    exact .same ⟨rfl, rfl, rfl, rfl, rfl, pendingRequests_update_out _ _ _ _⟩
  | unblock =>
    unfold unblockOr finishEvent
    repeat' split
    all_goals exact .same ⟨rfl, rfl, rfl, rfl, rfl, rfl⟩
  | addAnother =>
    unfold finishEvent
    split
    all_goals exact .same ⟨rfl, rfl, rfl, rfl, rfl, rfl⟩
  | closeFailed =>
    unfold closeFailed
    split
    · exact .same ⟨rfl, rfl, rfl, rfl, rfl, pendingRequests_update_out _ _ _ _⟩
    · exact .same ⟨rfl, rfl, rfl, rfl, rfl, rfl⟩
  | accept | turnAway =>
    by_cases hc : c = s.accepted
    · subst hc
      refine .accepted ?_ ?_ ?_ ?_ ?_ <;>
        simp [enlist, turnAway, acceptSocket, sktClose, ServerConnection.new]
    · refine .same ⟨?_, ?_, ?_, ?_, ?_, ?_⟩ <;>
        simp [enlist, turnAway, acceptSocket, sktClose, hc]
  | _ => exact .same ⟨rfl, rfl, rfl, rfl, rfl, rfl⟩

/-- Every step keeps the responses one to one and in order. -/
theorem AnsweredInOrder.of_move (hs : s.AnsweredInOrder processRequest errorPage c)
    (h : Move processRequest errorPage s a s') :
    s'.AnsweredInOrder processRequest errorPage c := by
  obtain ⟨answered, hall, heach⟩ := hs
  cases requestMove_of_move h c with
  | same hsame =>
    exact ⟨answered, by rw [hsame.requests, hsame.pending, hall], by rwa [hsame.answers]⟩
  | accepted hrequests hanswers _ _ hpending =>
    exact ⟨[], by rw [hrequests, hpending, List.append_nil], by rw [hanswers]; exact .nil⟩
  | read ht hdata hinput hpass =>
    subst hdata
    refine ⟨answered, ?_, by simpa [readDone] using heach⟩
    have hpending := pendingRequests_of_readMove hpass
    simp [readDone, hpending, hall]
  | @process i t env request pending response ht hpc hdata hpending hanswer =>
    subst hdata
    refine ⟨answered ++ [request], ?_, ?_⟩
    · simpa [processed, hpending] using hall
    · simpa [processed] using List.rel_append heach (.cons hanswer .nil)

/-- The connection is being cleaned up, or has been. -/
def CleanedUp (s : Server) (c : ℕ) : Prop := s.main.cleans = some c ∨ s.deleted c = true

/-- A clean-up is not undone, except where a new connection gets the name. -/
theorem CleanedUp.of_move (hs : s.CleanedUp c) (h : Move processRequest errorPage s a s') :
    s'.CleanedUp c ∨ (s'.conns c).pendingRequests = [] := by
  rcases hs with hmain | hdeleted
  · left
    cases h with
    | sweep hpc | startWaiting hpc | wait hpc =>
      rw [hpc] at hmain
      exact Or.inl hmain
    | delete hpc =>
      rw [hpc] at hmain
      obtain rfl := Option.some.inj hmain
      exact Or.inr (Function.update_self _ _ _)
    | startCleaning hpc | listen hpc | hangUp hpc _ _ | unblock hpc _ _ | addFirst hpc
    | addAnother hpc | endCleaning hpc | closeFailed hpc | startSweeping hpc _ | skip hpc _
    | poll hpc _ | accept hpc _ _ | turnAway hpc _ _ | acceptNone hpc =>
      simp [hpc, MainPc.cleans] at hmain
    | _ => exact Or.inl hmain
  · cases h with
    | unblock =>
      unfold unblockOr
      split <;> exact Or.inl (Or.inr hdeleted)
    | closeFailed =>
      unfold closeFailed
      split <;> exact Or.inl (Or.inr hdeleted)
    | @delete d clients hpc =>
      refine Or.inl (Or.inr ?_)
      change Function.update s.deleted d true c = true
      by_cases hd : c = d
      · rw [hd, Function.update_self]
      · rwa [Function.update_of_ne hd]
    | accept | turnAway =>
      by_cases hc : c = s.accepted
      · right
        simp [enlist, turnAway, acceptSocket, sktClose, ServerConnection.new, hc]
      · refine Or.inl (Or.inr ?_)
        simpa [enlist, turnAway, acceptSocket, hc] using hdeleted
    | _ => exact Or.inl (Or.inr hdeleted)

/-- A worker is on its way, or the thread that holds the mutex sees to it. -/
def Attended (s : Server) (c : ℕ) : Prop :=
  s.Runnable .poolWorker c ∨ ∃ t ∈ s.tasks, t.item.data = c ∧ t.Attends

/-- The thread that moves attends to its connection afterwards. -/
theorem Attended.of_set {i : ℕ} {t : Task} {blocked : Bool} {pc : TaskPc}
    (ht : s.tasks[i]? = some t) (htasks : s'.tasks = (s.moveTask i t blocked pc).tasks)
    (hattends : Task.Attends { t with pc }) : s'.Attended t.item.data := by
  refine Or.inr ⟨{ t with item := { t.item with blocked }, pc }, ?_, rfl, hattends⟩
  rw [htasks]
  exact List.mem_set (List.getElem?_eq_some_iff.mp ht).1 _

/-- A thread that attends to its connection goes on doing so until nothing is pending. -/
theorem attended_of_acted (h : Move processRequest errorPage s a s') {i : ℕ} {t : Task}
    (ha : a.task = some i) (ht : s.tasks[i]? = some t) (hattends : t.Attends) :
    s'.Attended t.item.data ∨ (s'.conns t.item.data).pendingRequests = [] := by
  cases h with
  | @enqueue j u pool pools hu hpc =>
    obtain rfl := eq_of_task_eq ha hu ht
    left
    by_cases hpool : pool = .poolWorker
    · -- the item that is added calls for a worker
      subst hpool
      exact Or.inl (runnable_enqueue _ _ _ _ _)
    · refine .of_set hu rfl ?_
      rcases hattends with ⟨hworker, _⟩ | ⟨pools', hpc', hmem⟩
      · exact Or.inl ⟨hworker, Or.inr ⟨pools, rfl⟩⟩
      · rw [hpc] at hpc'
        obtain rfl := TaskPc.enqueuing.inj hpc'
        rcases List.mem_cons.mp hmem with hhead | htail
        · exact absurd hhead.symm hpool
        · exact Or.inr ⟨pools, rfl, htail⟩
  | resume hu hpc hpool =>
    obtain rfl := eq_of_task_eq ha hu ht
    exact Or.inl (.of_set hu rfl (Or.inl ⟨hpool, Or.inl rfl⟩))
  | unlock hu hpc =>
    obtain rfl := eq_of_task_eq ha hu ht
    right
    rcases hpc with ⟨hpc, hpool⟩ | hpc | ⟨_, hnone⟩
    · simp [Task.Attends, hpc, hpool] at hattends
    · simp [Task.Attends, hpc] at hattends
    · exact hnone
  | process hu hpc hworker =>
    obtain rfl := eq_of_task_eq ha hu ht
    rcases hattends with ⟨hpool, _⟩ | ⟨pools, hother, _⟩
    · exact Or.inl (.of_set hu rfl (Or.inl ⟨hpool, Or.inr ⟨_, rfl⟩⟩))
    · simp [hpc] at hother
  | lock hu hpc _ | returnFinished hu hpc _ | returnUnfinished hu hpc _ | readd hu hpc
  | read hu hpc _ _ _ | write hu hpc _ _ =>
    obtain rfl := eq_of_task_eq ha hu ht
    simp [Task.Attends, hpc] at hattends
  | _ => simp [Action.task] at ha

/-- While requests are pending, a worker stays on its way. -/
theorem Attended.of_move (hs : s.Attended c) (hclean : ¬s.CleanedUp c)
    (h : Move processRequest errorPage s a s') :
    s'.Attended c ∨ (s'.conns c).pendingRequests = [] := by
  rcases hs with hrunnable | ⟨t, ht, rfl, hattends⟩
  · rcases hrunnable.of_move h with hstays | ⟨i, t, ht, hpool, rfl, rfl⟩ | ⟨pools, clients, hmain⟩
    · exact Or.inl (Or.inl hstays)
    · left
      refine .of_set ht rfl (Or.inl ⟨hpool, Or.inl ?_⟩)
      rw [hpool]
      rfl
    · exact absurd (Or.inl (by rw [hmain]; rfl)) hclean
  · rcases mem_tasks_of_move h ht with hstays | ⟨i, ha, hit⟩
    · exact Or.inl (Or.inr ⟨t, hstays, rfl, hattends⟩)
    · exact attended_of_acted h ha hit hattends

/-- A worker is on its way to the pending requests of a connection that is not cleaned up. -/
def PendingAttended (s : Server) (c : ℕ) : Prop :=
  ¬s.CleanedUp c → (s.conns c).pendingRequests ≠ [] → s.Attended c

/-- Pending requests are as they were, or there are none, or a thread attends to them. -/
theorem pendingRequests_of_move (hplaced : ∀ t ∈ s.tasks, t.Placed)
    (h : Move processRequest errorPage s a s') (c : ℕ) :
    (s'.conns c).pendingRequests = (s.conns c).pendingRequests ∨
      (s'.conns c).pendingRequests = [] ∨ s'.Attended c := by
  cases requestMove_of_move h c with
  | same hsame => exact Or.inl hsame.pending
  | accepted _ _ _ _ hpending => exact Or.inr (Or.inl hpending)
  | @read i n k t outcome pass ht hdata hinput hpass =>
    subst hdata
    cases hpass with
    | complete => exact Or.inr (Or.inr (.of_set ht rfl (Or.inr ⟨_, rfl, by simp⟩)))
    | _ => exact Or.inl (by simp [readDone])
  | @process i t env request pending response ht hpc hdata =>
    subst hdata
    have hpool := hplaced t (List.mem_of_getElem? ht)
    rw [Task.Placed, hpc] at hpool
    exact Or.inr (Or.inr (.of_set ht rfl (Or.inl ⟨hpool, Or.inr ⟨_, rfl⟩⟩)))

/-- Every step keeps workers on their way to pending requests. -/
theorem PendingAttended.of_move (hs : s.PendingAttended c) (hplaced : ∀ t ∈ s.tasks, t.Placed)
    (h : Move processRequest errorPage s a s') : s'.PendingAttended c := by
  intro hclean hpending
  have hbefore : ¬s.CleanedUp c := fun hcleaned =>
    (hcleaned.of_move h).elim hclean hpending
  rcases pendingRequests_of_move hplaced h c with hsame | hnone | hattended
  · exact ((hs hbefore (hsame ▸ hpending)).of_move hbefore h).resolve_right hpending
  · exact absurd hnone hpending
  · exact hattended

/-- What holds of the pending requests of a connection in every state of a run. -/
structure OneResponseEach
    (processRequest : ServerEnv → HttpRequest → Option (Option HttpResponse))
    (errorPage : Option Bytes) (s : Server) (c : ℕ) : Prop where
  /-- The responses of the workers are those of the requests they have taken, in order. -/
  answered : s.AnsweredInOrder processRequest errorPage c
  /-- While the mutex is free and requests are pending, an item for the workers can be fetched or
  a worker has fetched one and not locked the connection. -/
  runnable : ¬s.CleanedUp c → s.locked c = false → (s.conns c).pendingRequests ≠ [] →
    s.Runnable .poolWorker c

/-- In every state of every run, the requests of a connection are answered one to one and in
order, and none is left without a worker. -/
theorem oneResponseEach {as : List Action} {s : Server}
    (hrun : (machineWith processRequest errorPage).run as = some s) (c : ℕ) :
    s.OneResponseEach processRequest errorPage c := by
  have hinv : (s.AnsweredInOrder processRequest errorPage c ∧ s.PendingAttended c) ∧
      ∀ t ∈ s.tasks, t.Placed := by
    refine (machineWith processRequest errorPage).invariant_of_step
      (I := fun s => (s.AnsweredInOrder processRequest errorPage c ∧ s.PendingAttended c) ∧
        ∀ t ∈ s.tasks, t.Placed) ?_ ?_ hrun
    · rintro s a t ⟨⟨hanswered, hattended⟩, hplaced⟩ hstep
      have hmove := move_of_step hstep
      exact ⟨⟨hanswered.of_move hmove, hattended.of_move hplaced hmove⟩,
        placed_of_move hplaced hmove⟩
    · refine ⟨⟨⟨[], rfl, .nil⟩, fun _ hpending => absurd rfl hpending⟩, ?_⟩
      simp [machineWith, Server.start]
  refine ⟨hinv.1.1, fun hclean hfree hpending => ?_⟩
  rcases hinv.1.2 hclean hpending with hrunnable | ⟨t, ht, hdata, hattends⟩
  · exact hrunnable
  · have hcritical := (locksHeld_of_run hrun).not_critical hfree ht hdata
    rcases hattends with ⟨_, hpc | ⟨pools, hpc⟩⟩ | ⟨pools, hpc, _⟩ <;>
      simp [hpc, TaskPc.critical] at hcritical

/-- A client connects and sends a request, which a read pass appends. -/
def firstRequest : List Action :=
  [.poll [.listening], .main, .accept 5 true, .main, .acceptNone, .main, .arrive 0 27,
    .fetch .poolRead, .tick 0,
    .read 0 (.data ⟨[.messageBegin, .url (ascii "GET") (ascii "/"),
      .headerField 1 1 (ascii "Host"), .headerValue (ascii "a"), .headersComplete,
      .messageComplete], false, true, []⟩) 27 1,
    .tick 0, .tick 0, .tick 0]

/-- What a request reads where there are no files but the root. -/
def plainEnv : ServerEnv := ⟨rootFileSystem, none, none, [], fun _ => none⟩

/-- A server that has an answer for one target. -/
def answerRoot (_ : ServerEnv) (request : HttpRequest) : Option (Option HttpResponse) :=
  if request.req.bind (·.uri) = some (ascii "/") then
    some (some (httpResponseNew (httpResponseLineNew 204)))
  else some none

/-- A worker answers the request, and another read pass appends a second one. -/
def secondRequest : List Action :=
  firstRequest ++ [.tick 0, .fetch .poolWorker, .tick 0, .process 0 plainEnv, .tick 0, .tick 0,
    .tick 0, .tick 0, .main, .main, .main, .arrive 0 28,
    .poll [.client 0 ⟨false, false, true, false⟩], .main, .main, .fetch .poolRead, .tick 0,
    .read 0 (.data ⟨[.messageBegin, .url (ascii "GET") (ascii "/b"),
      .headerField 1 1 (ascii "Host"), .headerValue (ascii "a"), .headersComplete,
      .messageComplete], false, true, []⟩) 28 2,
    .tick 0, .tick 0, .tick 0]

/-- The first request is answered, and the second finds an item for the workers. -/
theorem oneResponseEach_secondRequest : ∃ s,
    (machineWith answerRoot none).run secondRequest = some s ∧
      (s.history.answers 0).map (·.resp.code) = [204] ∧ (s.conns 0).pendingRequests ≠ [] ∧
      s.OneResponseEach answerRoot none 0 ∧ s.Runnable .poolWorker 0 := by
  have hstate : ((machineWith answerRoot none).run secondRequest).map
      (fun s => (s.main, s.deleted 0, s.locked 0, (s.history.answers 0).map (·.resp.code),
        (s.conns 0).pendingRequests.length)) =
        some (.handling [], false, false, [204], 1) := by decide +kernel
  obtain ⟨s, hrun, hs⟩ := Option.map_eq_some_iff.mp hstate
  obtain ⟨hmain, hrest⟩ := Prod.mk.inj hs
  obtain ⟨hdeleted, hrest⟩ := Prod.mk.inj hrest
  obtain ⟨hfree, hrest⟩ := Prod.mk.inj hrest
  obtain ⟨hanswers, hlength⟩ := Prod.mk.inj hrest
  have hpending : (s.conns 0).pendingRequests ≠ [] := by
    intro hnone
    simp [hnone] at hlength
  have heach := oneResponseEach hrun 0
  refine ⟨s, hrun, hanswers, hpending, heach, heach.runnable ?_ hfree hpending⟩
  simp [CleanedUp, hmain, hdeleted, MainPc.cleans]

end Server

end Khttp
