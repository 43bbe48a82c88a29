import Khttp.ServerThreads

/-!
# Taking the server down

When `server_loop` has returned, nothing unblocks an item any more. `server_teardown`
stops the pools one after the other: `thread_pool_stop` sets the flag of a pool and waits
for its management thread, which waits until the queue is empty and then ends the
threads. The threads of all pools go on meanwhile. A step that uses the queue of a deleted
pool has no result.
-/

namespace Khttp

open Lib

/-- The positions of `server_start` behind the start of the pools. -/
inductive TeardownPc where
  /-- In `server_loop`. -/
  | running
  /-- In the loop of `server_stop_pools`, with the pools it has left. -/
  | stopping (pools : List ServerPool)
  /-- In the wait for a queue to be empty: the management thread of a pool, which
  `thread_pool_stop` waits for. -/
  | draining (pool : ServerPool) (pools : List ServerPool)
  /-- The management thread of a pool ends its threads. -/
  | ending (pool : ServerPool) (pools : List ServerPool)
  deriving DecidableEq, Repr

/-- The server with the position of the thread that started it. -/
structure Teardown where
  /-- The server. -/
  server : Server
  /-- The position. -/
  pc : TeardownPc

/-- What can happen to a server until it is down. -/
inductive TeardownAction where
  /-- The server goes on. -/
  | server (a : Server.Action)
  /-- An error at the listening socket ends the loop over the events. -/
  | listenError
  /-- `server_loop` returns. -/
  | endLoop
  /-- `thread_pool_stop` sets the flag of the next pool. -/
  | stop
  /-- The management thread sees an empty queue. -/
  | drained
  /-- The threads of a pool have been joined or cancelled, and the pool is deleted. -/
  | join

/-- The action is one of the thread that runs `server_loop`. -/
def Server.Action.ofLoop : Server.Action → Bool
  | .main | .poll _ | .accept _ _ | .acceptNone => true
  | _ => false

/-- The pool that a thread finds through its connection or its own pool: the one whose queue the
action fetches from, or adds an item to in `CONN_ENQUEUE`. -/
def Server.usesPool (s : Server) : Server.Action → Option ServerPool
  | .fetch pool => some pool
  | .tick i => (s.tasks[i]?).bind fun t =>
    match t.pc with
    | .enqueuing (pool :: _) => some pool
    | _ => none
  | _ => none

/-- The threads of a pool are gone. A mutex that one of them held stays locked. -/
def Server.dropThreads (s : Server) (pool : ServerPool) : Server :=
  { s with tasks := s.tasks.filter (·.pool ≠ pool) }

/-- The queue of a pool as it has been left. -/
def Server.setQueue (s : Server) (pool : ServerPool) (queue : Queue ℕ) : Server :=
  { s with pools := Function.update s.pools pool queue }

namespace Teardown

/-- `pool->shutdown`, which stays set where the pool is deleted. -/
def shutdown (s : Teardown) (pool : ServerPool) : Bool :=
  match s.pc with
  | .running => false
  | .stopping pools | .draining _ pools | .ending _ pools => pool ∉ pools

/-- The pool has been deleted. -/
def deleted (s : Teardown) (pool : ServerPool) : Bool :=
  match s.pc with
  | .running => false
  | .stopping pools => pool ∉ pools
  | .draining current pools | .ending current pools => pool ∉ current :: pools

/-- The server may take the action: its main loop only until it has returned, and a thread only
where it uses no pool that has been deleted. -/
def allows (s : Teardown) (a : Server.Action) : Bool :=
  (s.pc = .running || !a.ofLoop) && (s.server.usesPool a).all fun pool => !s.deleted pool

/-- The effect of an action. -/
def step (processRequest : ServerEnv → HttpRequest → Option (Option HttpResponse))
    (errorPage : Option Bytes) (s : Teardown) : TeardownAction → Option Teardown
  | .server a =>
    if s.allows a then
      (s.server.step processRequest errorPage a).map fun server => { s with server }
    else none
  | .listenError =>
    match s.pc, s.server.main with
    | .running, .handling (_ :: _) =>
      some { s with server := s.server.atMain (.cleaning s.server.clients) }
    | _, _ => none
  | .endLoop =>
    if s.pc = .running ∧ s.server.main = .polling then some { s with pc := .stopping allPools }
    else none
  | .stop =>
    match s.pc with
    | .stopping (pool :: pools) => some { s with pc := .draining pool pools }
    | _ => none
  | .drained =>
    match s.pc with
    | .draining pool pools =>
      if (s.server.pools pool).count = 0 then some { s with pc := .ending pool pools } else none
    | _ => none
  | .join =>
    match s.pc with
    | .ending pool pools =>
      -- `queue_delete` calls `queue_clear`
      (s.server.pools pool).clear.map fun queue =>
        ⟨(s.server.dropThreads pool).setQueue pool queue, .stopping pools⟩
    | _ => none

end Teardown

/-- The server until it is down, with `processRequest` for `server_process_request`. -/
def teardownWith (processRequest : ServerEnv → HttpRequest → Option (Option HttpResponse))
    (errorPage : Option Bytes) : Machine Teardown TeardownAction :=
  ⟨⟨.start, .running⟩, Teardown.step processRequest errorPage⟩

/-- The server until it is down. -/
def teardownMachine (config : ConfigServer) (errorPage : Option Bytes) :
    Machine Teardown TeardownAction := teardownWith (processWith config) errorPage

namespace Server

/-- The drain of a pool waits for items that no thread can take: there are some, no thread
of the pool holds one, and all are blocked. -/
structure Stuck (s : Server) (pool : ServerPool) : Prop where
  /-- `queue_count` is positive. -/
  count_pos : 0 < (s.pools pool).count
  /-- No thread of the pool holds an item. -/
  idle : ∀ t ∈ s.tasks, t.pool ≠ pool
  /-- Every item in the list is blocked. -/
  blocked : ∀ item ∈ (s.pools pool).list, item.blocked = true

/-- No item is blocked, in a list or in the hands of a thread. -/
structure Unblocked (s : Server) : Prop where
  /-- The items in the lists. -/
  items : ∀ pool, ∀ item ∈ (s.pools pool).list, item.blocked = false
  /-- The items in the hands of threads. -/
  tasks : ∀ t ∈ s.tasks, t.item.blocked = false

/-- Whether an item is blocked can be seen in the three pools and the threads. -/
instance (s : Server) : Decidable s.Unblocked :=
  decidable_of_iff ((∀ pool ∈ allPools, ∀ item ∈ (s.pools pool).list, item.blocked = false) ∧
      ∀ t ∈ s.tasks, t.item.blocked = false)
    ⟨fun h => ⟨fun pool => h.1 pool (by cases pool <;> decide), h.2⟩,
      fun h => ⟨fun pool _ => h.items pool, h.tasks⟩⟩

/-- The action is a `read`, or a `write` of pending bytes, that would block. -/
def blocks (s : Server) : Action → Bool
  | .read _ outcome _ _ => outcome = .wouldBlock
  | .write i env => env.write = .wouldBlock && (s.tasks[i]?).any fun t =>
      (t.pc = .writing .drainFirst || t.pc = .writing .drainHead) &&
        (s.conns t.item.data).out.pendingWrites.first ≠ none
  | _ => false

variable {processRequest : ServerEnv → HttpRequest → Option (Option HttpResponse)}
  {errorPage : Option Bytes} {s s' : Server} {a : Action} {pool : ServerPool} {queue : Queue ℕ}

/-- The end of a pool leaves every queue its items and its count. -/
theorem pools_join (hqueue : (s.pools pool).clear = some queue) (other : ServerPool) :
    ∃ tokens, ((s.dropThreads pool).setQueue pool queue).pools other =
      { s.pools other with processing := tokens } := by
  obtain ⟨_, rfl⟩ := Queue.clear_eq_some hqueue
  by_cases hother : other = pool
  · subst hother
    exact ⟨[], by simp [setQueue]⟩
  · exact ⟨(s.pools other).processing, by simp [setQueue, dropThreads, hother]⟩

/-- Every step counts what it does to a queue. -/
theorem QueueMove.counted (h : s.QueueMove a pool queue) (hs : (s.pools pool).Counted) :
    queue.Counted := by
  cases h with
  | same => exact hs
  | add => exact hs.add _
  | fetchone => exact hs.fetchone
  | unblockByptr _ c => exact hs.unblockByptr c
  | removeByptr _ c => exact hs.removeByptr c
  | pendingRemove => exact hs

/-- No step adds a blocked item where no thread holds one. -/
theorem QueueMove.unblocked (h : s.QueueMove a pool queue) (hs : s.Unblocked) :
    ∀ item ∈ queue.list, item.blocked = false := by
  intro item hitem
  cases h with
  | same | pendingRemove => exact hs.items pool item hitem
  | add hnew =>
    rcases List.mem_append.mp hitem with hold | hlast
    · exact hs.items pool item hold
    · obtain rfl := List.mem_singleton.mp hlast
      rcases hnew with hnew | ⟨t, ht, rfl⟩
      · exact hnew
      · exact hs.tasks t ht
  | fetchone =>
    rcases (s.pools pool).fetchone_cases with heq | ⟨before, found, after, hlist, -, heq⟩
    · rw [heq] at hitem
      exact hs.items pool item hitem
    · rw [heq] at hitem
      refine hs.items pool item ?_
      rw [hlist]
      rcases List.mem_append.mp hitem with hfront | hback
      · exact List.mem_append_left _ hfront
      · exact List.mem_append_right _ (List.mem_cons_of_mem _ hback)
  | unblockByptr _ c =>
    obtain ⟨old, hold, rfl⟩ := List.mem_map.mp hitem
    split
    · rfl
    · exact hs.items pool old hold
  | removeByptr _ c => exact hs.items pool item (List.mem_of_mem_filter hitem)

/-- No thread's item becomes blocked unless a call would block. -/
theorem tasks_unblocked_of_move (hs : s.Unblocked) (hblocks : s.blocks a = false)
    (h : Move processRequest errorPage s a s') : ∀ t ∈ s'.tasks, t.item.blocked = false := by
  intro t ht
  have hmoved {i : ℕ} {before : Task} {blocked : Bool} {pc : TaskPc}
      (ht : t ∈ (s.moveTask i before blocked pc).tasks) (hblocked : blocked = false) :
      t.item.blocked = false := by
    rcases eq_or_getElem?_of_mem_moveTask ht with rfl | ⟨j, -, hj⟩
    · exact hblocked
    · exact hs.tasks t (List.mem_of_getElem? hj)
  cases h with
  | fetch hfetch =>
    rcases List.mem_append.mp ht with hold | hnew
    · exact hs.tasks t hold
    · rw [List.mem_singleton.mp hnew]
      exact (list_of_fetchone hfetch).1
  | lock hbefore | enqueue hbefore | resume hbefore | unlock hbefore | returnUnfinished hbefore
  | process hbefore => exact hmoved ht (hs.tasks _ (List.mem_of_getElem? hbefore))
  | returnFinished | readd => exact hs.tasks t (List.mem_of_mem_eraseIdx ht)
  | read hbefore hpc hmay hinput hpass =>
    refine hmoved ht ?_
    cases readMove_of_serverLoopRead hpass with
    | wouldBlock => simp [blocks] at hblocks
    | _ => rfl
  | @write i before env pc pass hbefore hpc hopen hpass =>
    refine hmoved ht ?_
    by_contra hpassed
    rcases WritePass.step_blocked hpass (by simpa using hpassed) with hold | ⟨hwrite, hat, hfirst⟩
    · have hheld := hs.tasks _ (List.mem_of_getElem? hbefore)
      simp [writePass, hheld] at hold
    · simp only [writePass] at hat hfirst
      rcases hat with rfl | rfl <;> simp [blocks, hwrite, hbefore, hpc, hfirst] at hblocks
  | unblock => exact hs.tasks t (by simpa using ht)
  | closeFailed => exact hs.tasks t (by simpa [atMain] using ht)
  | addAnother => exact hs.tasks t (by simpa [finishEvent, addItem] using ht)
  | _ => exact hs.tasks t ht

/-- A blocked item stays in its queue unless the main loop acts. -/
theorem QueueMove.mem_of_blocked (h : s.QueueMove a pool queue) (ha : a ≠ .main)
    {item : QueueItem ℕ} (hitem : item ∈ (s.pools pool).list) (hblocked : item.blocked = true) :
    item ∈ queue.list := by
  cases h with
  | same | pendingRemove => exact hitem
  | add => exact List.mem_append_left _ hitem
  | fetchone =>
    rcases (s.pools pool).fetchone_cases with heq | ⟨before, found, after, hlist, hfound, heq⟩
    · rwa [heq]
    · rw [heq]
      rw [hlist] at hitem
      have hne : item ≠ found := by
        rintro rfl
        simp [hblocked] at hfound
      simpa [hne] using hitem
  | unblockByptr hmain | removeByptr hmain => exact absurd hmain ha

/-- A counted queue without blocked items is not stuck. -/
theorem Unblocked.not_stuck (hs : s.Unblocked) (hcounted : (s.pools pool).Counted) :
    ¬s.Stuck pool := by
  intro hstuck
  have hpos := hstuck.count_pos
  rw [hcounted] at hpos
  obtain ⟨item, hitem⟩ := List.exists_mem_of_length_pos hpos
  have hblocked := hstuck.blocked item hitem
  rw [hs.items pool item hitem] at hblocked
  simp at hblocked

end Server

namespace Teardown

/-- A step of a shutdown that can drain: the main loop ends where no item is blocked, and
no call blocks after that. -/
def DrainsFreely (s : Teardown) : TeardownAction → Prop
  | .endLoop => s.server.Unblocked
  | .server a => s.pc ≠ .running → s.server.blocks a = false
  | _ => True

instance (s : Teardown) : ∀ a, Decidable (s.DrainsFreely a)
  | .endLoop => inferInstanceAs (Decidable s.server.Unblocked)
  | .server a => inferInstanceAs (Decidable (s.pc ≠ .running → s.server.blocks a = false))
  | .listenError | .stop | .drained | .join => isTrue trivial

/-- What holds on the way down: the queues are counted, and no item is blocked once the main
loop has ended. -/
structure Draining (s : Teardown) : Prop where
  /-- Every count is the length of its list. -/
  counted : ∀ pool, (s.server.pools pool).Counted
  /-- No item is blocked behind the main loop. -/
  unblocked : s.pc ≠ .running → s.server.Unblocked

variable {processRequest : ServerEnv → HttpRequest → Option (Option HttpResponse)}
  {errorPage : Option Bytes} {s s' : Teardown} {a : TeardownAction}

/-- A step that drains freely keeps the way down free. -/
theorem Draining.of_step (hs : s.Draining) (hgood : s.DrainsFreely a)
    (h : s.step processRequest errorPage a = some s') : s'.Draining := by
  cases a with
  | server a =>
    simp only [step, Option.ite_none_right_eq_some, Option.map_eq_some_iff] at h
    obtain ⟨-, server, hserver, rfl⟩ := h
    have hmove := Server.move_of_step hserver
    refine ⟨fun pool => (Server.queueMove_of_move hmove pool).counted (hs.counted pool),
      fun hpc => ?_⟩
    have hfree := hs.unblocked hpc
    exact ⟨fun pool => (Server.queueMove_of_move hmove pool).unblocked hfree,
      Server.tasks_unblocked_of_move hfree (hgood hpc) hmove⟩
  | listenError =>
    simp only [step] at h
    split at h
    · next hpc _ =>
      obtain rfl := Option.some.inj h
      exact ⟨hs.counted, fun hrunning => absurd hpc hrunning⟩
    · simp at h
  | endLoop =>
    simp only [step, Option.ite_none_right_eq_some, Option.some.injEq] at h
    obtain ⟨-, rfl⟩ := h
    exact ⟨hs.counted, fun _ => hgood⟩
  | stop =>
    simp only [step] at h
    split at h
    · next hpc =>
      obtain rfl := Option.some.inj h
      exact ⟨hs.counted, fun _ => hs.unblocked (by simp [hpc])⟩
    · simp at h
  | drained =>
    simp only [step] at h
    split at h
    · next hpc =>
      simp only [Option.ite_none_right_eq_some, Option.some.injEq] at h
      obtain ⟨-, rfl⟩ := h
      exact ⟨hs.counted, fun _ => hs.unblocked (by simp [hpc])⟩
    · simp at h
  | join =>
    simp only [step] at h
    split at h
    · next pool pools hpc =>
      obtain ⟨queue, hqueue, rfl⟩ := Option.map_eq_some_iff.mp h
      have hfree := hs.unblocked (by simp [hpc])
      refine ⟨fun other => ?_, fun _ => ⟨fun other => ?_, fun t ht => ?_⟩⟩
      · obtain ⟨tokens, htokens⟩ := Server.pools_join hqueue other
        rw [htokens]
        exact hs.counted other
      · obtain ⟨tokens, htokens⟩ := Server.pools_join hqueue other
        rw [htokens]
        exact hfree.items other
      · exact hfree.tasks t (List.mem_of_mem_filter ht)
    · simp at h

/-- Behind the main loop no step takes a blocked item out of its queue. -/
theorem blocked_stays_of_step (hpc : s.pc ≠ .running) {pool : ServerPool} {item : QueueItem ℕ}
    (hitem : item ∈ (s.server.pools pool).list) (hblocked : item.blocked = true)
    (h : s.step processRequest errorPage a = some s') :
    s'.pc ≠ .running ∧ item ∈ (s'.server.pools pool).list := by
  cases a with
  | server a =>
    simp only [step, Option.ite_none_right_eq_some, Option.map_eq_some_iff] at h
    obtain ⟨hallows, server, hserver, rfl⟩ := h
    have hmain : a ≠ .main := by
      rintro rfl
      simp [allows, hpc, Server.Action.ofLoop] at hallows
    exact ⟨hpc, (Server.queueMove_of_move (Server.move_of_step hserver) pool).mem_of_blocked hmain
      hitem hblocked⟩
  | listenError =>
    simp only [step] at h
    split at h
    · next hrunning _ => exact absurd hrunning hpc
    · simp at h
  | endLoop =>
    simp only [step, Option.ite_none_right_eq_some] at h
    exact absurd h.1.1 hpc
  | join =>
    simp only [step] at h
    split at h
    · obtain ⟨queue, hqueue, rfl⟩ := Option.map_eq_some_iff.mp h
      obtain ⟨tokens, htokens⟩ := Server.pools_join hqueue pool
      rw [htokens]
      exact ⟨by simp, hitem⟩
    · simp at h
  | stop | drained =>
    simp only [step] at h
    split at h
    · simp only [Option.ite_none_right_eq_some, Option.some.injEq] at h
      first
        | obtain rfl := h
        | obtain ⟨-, rfl⟩ := h
      exact ⟨by simp, hitem⟩
    · simp at h

/-- An item that is blocked when the main loop has ended stays in its queue for ever. -/
theorem blocked_stays {as : List TeardownAction} (hpc : s.pc ≠ .running) {pool : ServerPool}
    {item : QueueItem ℕ} (hitem : item ∈ (s.server.pools pool).list)
    (hblocked : item.blocked = true)
    (hrun : (teardownWith processRequest errorPage).runFrom s as = some s') :
    item ∈ (s'.server.pools pool).list :=
  ((teardownWith processRequest errorPage).invariant_of_step
    (I := fun s => s.pc ≠ .running ∧ item ∈ (s.server.pools pool).list)
    (fun _ _ _ hs hstep => blocked_stays_of_step hs.1 hs.2 hblocked hstep) ⟨hpc, hitem⟩ hrun).2

/-- Where no item is blocked at the end of the main loop and no call blocks after it, no pool
that is being shut down is stuck in any state. -/
theorem drain_not_stuck {config : ConfigServer} {as : List TeardownAction}
    (hmeets : (teardownMachine config errorPage).Meets DrainsFreely
      (teardownMachine config errorPage).init as)
    (hrun : (teardownMachine config errorPage).run as = some s) (pool : ServerPool)
    (hshutdown : s.shutdown pool = true) : ¬s.server.Stuck pool := by
  have hinit : (teardownMachine config errorPage).init.Draining :=
    ⟨fun _ => rfl, fun hpc => absurd rfl hpc⟩
  have hs := (teardownMachine config errorPage).invariant DrainsFreely Draining
    (fun _ _ _ hs hgood hstep => hs.of_step hgood hstep) hinit hmeets hrun
  refine (hs.unblocked fun hrunning => ?_).not_stuck (hs.counted pool)
  simp [shutdown, hrunning] at hshutdown

/-- A client connects, and the main loop waits for events again. -/
def firstClient : List TeardownAction :=
  ([.poll [.listening], .main, .accept 5 true, .main, .acceptNone, .main, .main, .main,
    .main] : List Server.Action).map .server

/-- A thread reads all that the client sent, which is nothing, and keeps the item blocked. -/
def idleRead : List TeardownAction :=
  ([.fetch .poolRead, .tick 0, .read 0 .wouldBlock 0 1, .tick 0, .tick 0,
    .tick 0] : List Server.Action).map .server

/-- A thread finds that the client has left. -/
def lastRead : List TeardownAction :=
  ([.fetch .poolRead, .tick 0, .read 0 .eof 0 1, .tick 0, .tick 0] : List Server.Action).map .server

/-- The item of the only client is not blocked when the main loop ends, and its last read
does not block. -/
theorem drain_not_stuck_lastRead : ∃ s,
    (teardownMachine (configServerNew []) none).run
      (firstClient ++ [.endLoop, .stop] ++ lastRead) = some s ∧
      s.shutdown .poolRead = true ∧ ¬s.server.Stuck .poolRead := by
  have hstate : ((teardownMachine (configServerNew []) none).run
      (firstClient ++ [.endLoop, .stop] ++ lastRead)).map (·.shutdown .poolRead) = some true := by
    decide +kernel
  obtain ⟨s, hrun, hs⟩ := Option.map_eq_some_iff.mp hstate
  exact ⟨s, hrun, hs, drain_not_stuck (by decide +kernel) hrun .poolRead hs⟩

/-- An idle connection has its item blocked in the read queue when the main loop ends, and
the pool waits for the item for ever. -/
theorem stuck_idleRead : ∃ s,
    (teardownMachine (configServerNew []) none).run
      (firstClient ++ idleRead ++ [.endLoop, .stop]) = some s ∧
      s.shutdown .poolRead = true ∧ s.server.Stuck .poolRead := by
  have hstate : ((teardownMachine (configServerNew []) none).run
      (firstClient ++ idleRead ++ [.endLoop, .stop])).map (fun s => (s.shutdown .poolRead,
        s.server.tasks, (s.server.pools .poolRead).count, (s.server.pools .poolRead).list)) =
      some (true, [], 1, [⟨1, true, 0⟩]) := by decide +kernel
  obtain ⟨s, hrun, hs⟩ := Option.map_eq_some_iff.mp hstate
  obtain ⟨hshutdown, hs⟩ := Prod.mk.inj hs
  obtain ⟨htasks, hs⟩ := Prod.mk.inj hs
  obtain ⟨hcount, hlist⟩ := Prod.mk.inj hs
  exact ⟨s, hrun, hshutdown, by simp [hcount], by simp [htasks], by simp [hlist]⟩

end Teardown

end Khttp
