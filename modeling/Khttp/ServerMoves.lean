import Khttp.Server

/-!
# What a step of the server can do

Every step is one of the moves below, with the conditions under which it is made. What
is proved about all steps of the server is proved move by move.
-/

namespace Khttp

namespace Server

/-- The moves of the server. -/
inductive Move (processRequest : ServerEnv → HttpRequest → Option (Option HttpResponse))
    (errorPage : Option Bytes) (s : Server) : Action → Server → Prop
  /-- A thread fetches an item. -/
  | fetch {pool : ServerPool} {queue : Queue ℕ} {item : QueueItem ℕ}
      (hfetch : (s.pools pool).fetchone = (queue, some item)) :
      Move processRequest errorPage s (.fetch pool) (s.fetched pool queue item)
  /-- A task locks its connection. -/
  | lock {i : ℕ} {t : Task} (ht : s.tasks[i]? = some t) (hpc : t.pc = .fetched)
      (hfree : s.locked t.item.data = false) (hkept : s.deleted t.item.data = false) :
      Move processRequest errorPage s (.tick i) (s.lock i t)
  /-- A task adds an item. -/
  | enqueue {i : ℕ} {t : Task} {pool : ServerPool} {pools : List ServerPool}
      (ht : s.tasks[i]? = some t) (hpc : t.pc = .enqueuing (pool :: pools))
      (hkept : s.deleted t.item.data = false) :
      Move processRequest errorPage s (.tick i) (s.enqueue i t pool pools)
  /-- A worker goes on with the next request. -/
  | resume {i : ℕ} {t : Task} (ht : s.tasks[i]? = some t) (hpc : t.pc = .enqueuing [])
      (hpool : t.pool = .poolWorker) (hkept : s.deleted t.item.data = false) :
      Move processRequest errorPage s (.tick i) (s.moveTask i t t.item.blocked .working)
  /-- A task unlocks its connection. -/
  | unlock {i : ℕ} {t : Task} (ht : s.tasks[i]? = some t)
      (hpc : (t.pc = .enqueuing [] ∧ t.pool ≠ .poolWorker) ∨ t.pc = .writing .finished ∨
        (t.pc = .working ∧ (s.conns t.item.data).pendingRequests = []))
      (hkept : s.deleted t.item.data = false) :
      Move processRequest errorPage s (.tick i) (s.unlock i t)
  /-- A task returns a finished item. -/
  | returnFinished {i : ℕ} {t : Task} (ht : s.tasks[i]? = some t) (hpc : t.pc = .returning)
      (hfinished : t.finished = true) :
      Move processRequest errorPage s (.tick i) (s.returnFinished i t)
  /-- A task begins to return an unfinished item. -/
  | returnUnfinished {i : ℕ} {t : Task} (ht : s.tasks[i]? = some t) (hpc : t.pc = .returning)
      (hfinished : t.finished = false) :
      Move processRequest errorPage s (.tick i) (s.returnUnfinished i t)
  /-- A task adds the unfinished item again. -/
  | readd {i : ℕ} {t : Task} (ht : s.tasks[i]? = some t) (hpc : t.pc = .readding) :
      Move processRequest errorPage s (.tick i) (s.readdItem i t)
  /-- A read pass. -/
  | read {i : ℕ} {t : Task} {outcome : SocketRead} {n k : ℕ} {pass : ReadPass}
      (ht : s.tasks[i]? = some t) (hpc : t.pc = .reading)
      (hmay : s.kernel.mayRead (s.target t.item.data) n outcome = true)
      (hinput : s.input t.item.data ≤ k)
      (hpass : serverLoopRead errorPage (s.conns t.item.data) outcome = some pass)
      (hkept : s.deleted t.item.data = false) :
      Move processRequest errorPage s (.read i outcome n k) (s.readDone i t outcome n k pass)
  /-- A step of a write pass. -/
  | write {i : ℕ} {t : Task} {env : WriteEnv} {pc : WritePc} {pass : WritePass}
      (ht : s.tasks[i]? = some t) (hpc : t.pc = .writing pc)
      (hopen : s.target t.item.data = none → env.write = .hardError)
      (hpass : (s.writePass t pc).step env = some pass)
      (hkept : s.deleted t.item.data = false) :
      Move processRequest errorPage s (.write i env) (s.written i t pass)
  /-- A worker answers a request. -/
  | process {i : ℕ} {t : Task} {env : ServerEnv} {conn : ServerConnection}
      {response : HttpResponse} (ht : s.tasks[i]? = some t) (hpc : t.pc = .working)
      (hworker : serverLoopWorker processRequest errorPage env (s.conns t.item.data) =
        some (conn, response)) (hkept : s.deleted t.item.data = false) :
      Move processRequest errorPage s (.process i env) (s.processed i t conn response)
  /-- The events are dealt with. -/
  | startCleaning (hmain : s.main = .handling []) :
      Move processRequest errorPage s .main (s.atMain (.cleaning s.clients))
  /-- An event on the listening socket. -/
  | listen {events : List EpollEvent} (hmain : s.main = .handling (.listening :: events)) :
      Move processRequest errorPage s .main (s.atMain (.accepting events))
  /-- An event closes a connection. -/
  | hangUp {c blocks : ℕ} {mask : EventMask} {events : List EpollEvent}
      (hmain : s.main = .handling (.client c mask blocks :: events)) (hc : c ∈ s.clients)
      (hmask : mask.hangsUp = true) :
      Move processRequest errorPage s .main ((s.sktClose c).atMain (.handling events))
  /-- An event unblocks items. -/
  | unblock {c blocks : ℕ} {mask : EventMask} {events : List EpollEvent}
      (hmain : s.main = .handling (.client c mask blocks :: events)) (hc : c ∈ s.clients)
      (hmask : mask.hangsUp = false) :
      Move processRequest errorPage s .main (s.unblockOr mask.pool c mask blocks events)
  /-- The first item of a new connection is added. -/
  | addFirst {c : ℕ} {events : List EpollEvent} (hmain : s.main = .enlisted c events) :
      Move processRequest errorPage s .main ((s.addItem .poolRead c).atMain (.accepting events))
  /-- An event adds an item. -/
  | addAnother {c blocks : ℕ} {pool : ServerPool} {mask : EventMask} {events : List EpollEvent}
      (hmain : s.main = .adding c pool mask blocks events) :
      Move processRequest errorPage s .main ((s.addItem pool c).finishEvent c mask blocks events)
  /-- All clients have been looked at. -/
  | endCleaning (hmain : s.main = .cleaning []) :
      Move processRequest errorPage s .main (s.atMain .polling)
  /-- A connection with an error is closed. -/
  | closeFailed {c : ℕ} {clients : List ℕ} (hmain : s.main = .cleaning (c :: clients)) :
      Move processRequest errorPage s .main ((s.closeFailed c).atMain (.tested c clients))
  /-- The test for a closed connection succeeds. -/
  | startSweeping {c : ℕ} {clients : List ℕ} (hmain : s.main = .tested c clients)
      (hclosed : (s.conns c).out.closed = true) :
      Move processRequest errorPage s .main (s.atMain (.sweeping c allPools clients))
  /-- The test for a closed connection fails. -/
  | skip {c : ℕ} {clients : List ℕ} (hmain : s.main = .tested c clients)
      (hopen : (s.conns c).out.closed = false) :
      Move processRequest errorPage s .main (s.atMain (.cleaning clients))
  /-- The items of a connection are removed from a queue. -/
  | sweep {c : ℕ} {pool : ServerPool} {pools : List ServerPool} {clients : List ℕ}
      (hmain : s.main = .sweeping c (pool :: pools) clients) :
      Move processRequest errorPage s .main ((s.sweep pool c).atMain (.sweeping c pools clients))
  /-- All queues have been swept. -/
  | startWaiting {c : ℕ} {clients : List ℕ} (hmain : s.main = .sweeping c [] clients) :
      Move processRequest errorPage s .main (s.atMain (.waiting c allPools clients))
  /-- No item of the connection is in process in a pool. -/
  | wait {c : ℕ} {pool : ServerPool} {pools : List ServerPool} {clients : List ℕ}
      (hmain : s.main = .waiting c (pool :: pools) clients)
      (hnone : (s.pools pool).pendingByptr c = none) :
      Move processRequest errorPage s .main (s.atMain (.waiting c pools clients))
  /-- A connection is deleted. -/
  | delete {c : ℕ} {clients : List ℕ} (hmain : s.main = .waiting c [] clients) :
      Move processRequest errorPage s .main ((s.deleteConnection c).atMain (.cleaning clients))
  /-- `epoll_wait` returns. -/
  | poll {reports : List Report} (hmain : s.main = .polling)
      (htrue : ∀ report ∈ reports, s.mayReport report = true) :
      Move processRequest errorPage s (.poll reports) (s.polled reports)
  /-- A connection is accepted. -/
  | accept {fd : ℕ} {events : List EpollEvent} (hmain : s.main = .accepting events)
      (hpos : 0 < fd) (hfree : s.kernel.fds fd = none) :
      Move processRequest errorPage s (.accept fd true) (s.enlist fd events)
  /-- A connection is accepted and closed at once. -/
  | turnAway {fd : ℕ} {events : List EpollEvent} (hmain : s.main = .accepting events)
      (hpos : 0 < fd) (hfree : s.kernel.fds fd = none) :
      Move processRequest errorPage s (.accept fd false) (s.turnAway fd)
  /-- There is no connection to accept. -/
  | acceptNone {events : List EpollEvent} (hmain : s.main = .accepting events) :
      Move processRequest errorPage s .acceptNone (s.atMain (.handling events))
  /-- Bytes arrive. -/
  | arrive {c n : ℕ} (hopen : s.target c = some (.socket c)) (hpos : 0 < n) :
      Move processRequest errorPage s (.arrive c n) (s.arrived c n)
  /-- A file is opened. -/
  | openFile {fd : ℕ} (hfree : s.kernel.fds fd = none) :
      Move processRequest errorPage s (.openFile fd) (s.opened fd)
  /-- A file is closed. -/
  | closeFile {fd : ℕ} (hfile : s.kernel.fds fd = some .file) :
      Move processRequest errorPage s (.closeFile fd) { s with kernel := s.kernel.close fd }

variable {processRequest : ServerEnv → HttpRequest → Option (Option HttpResponse)}
  {errorPage : Option Bytes} {s s' : Server}

/-- A task that may go on is in the list, and its connection is there if it uses it. -/
theorem task_eq_some {i : ℕ} {t : Task} (h : s.task i = some t) :
    s.tasks[i]? = some t ∧ (t.pc.usesConnection = true → s.deleted t.item.data = false) := by
  obtain ⟨ht, huses⟩ := Option.filter_eq_some_iff.mp h
  refine ⟨ht, fun hpc => ?_⟩
  simpa [hpc] using huses

/-- A step of a task by itself is a move. -/
theorem move_of_tick {i : ℕ} (h : (s.task i).bind (s.tick i) = some s') :
    Move processRequest errorPage s (.tick i) s' := by
  obtain ⟨t, htask, h⟩ := Option.bind_eq_some_iff.mp h
  obtain ⟨ht, huses⟩ := task_eq_some htask
  unfold tick at h
  split at h
  · next hpc =>
    split at h
    · simp at h
    · next hfree =>
      obtain rfl := Option.some.inj h
      exact .lock ht hpc (by simpa using hfree) (huses (by rw [hpc]; rfl))
  · next hpc =>
    obtain rfl := Option.some.inj h
    exact .enqueue ht hpc (huses (by rw [hpc]; rfl))
  · next hpc =>
    have hkept := huses (by rw [hpc]; rfl)
    split at h
    · next hpool =>
      obtain rfl := Option.some.inj h
      exact .resume ht hpc hpool hkept
    · next hpool =>
      obtain rfl := Option.some.inj h
      exact .unlock ht (Or.inl ⟨hpc, hpool⟩) hkept
  · next hpc =>
    obtain rfl := Option.some.inj h
    exact .unlock ht (Or.inr (Or.inl hpc)) (huses (by rw [hpc]; rfl))
  · next hpc =>
    split at h
    · next hnone =>
      obtain rfl := Option.some.inj h
      exact .unlock ht (Or.inr (Or.inr ⟨hpc, hnone⟩)) (huses (by rw [hpc]; rfl))
    · simp at h
  · next hpc =>
    obtain rfl := Option.some.inj h
    split
    · next hfinished => exact .returnFinished ht hpc hfinished
    · next hfinished => exact .returnUnfinished ht hpc (by simpa using hfinished)
  · next hpc =>
    obtain rfl := Option.some.inj h
    exact .readd ht hpc
  · simp at h
  · simp at h

/-- A step of the main loop by itself is a move. -/
theorem move_of_mainTick (h : s.mainTick = some s') : Move processRequest errorPage s .main s' := by
  unfold mainTick at h
  split at h
  · next hmain =>
    obtain rfl := Option.some.inj h
    exact .startCleaning hmain
  · next event events hmain =>
    cases event with
    | listening =>
      obtain rfl := Option.some.inj h
      exact .listen hmain
    | client c mask blocks =>
      simp only [handle] at h
      split at h
      · next hc =>
        split at h
        · next hmask =>
          obtain rfl := Option.some.inj h
          exact .hangUp hmain hc hmask
        · next hmask =>
          obtain rfl := Option.some.inj h
          exact .unblock hmain hc (by simpa using hmask)
      · simp at h
  · next hmain =>
    obtain rfl := Option.some.inj h
    exact .addFirst hmain
  · next hmain =>
    obtain rfl := Option.some.inj h
    exact .addAnother hmain
  · next hmain =>
    obtain rfl := Option.some.inj h
    exact .endCleaning hmain
  · next hmain =>
    obtain rfl := Option.some.inj h
    exact .closeFailed hmain
  · next hmain =>
    obtain rfl := Option.some.inj h
    split
    · next hclosed => exact .startSweeping hmain hclosed
    · next hclosed => exact .skip hmain (by simpa using hclosed)
  · next hmain =>
    obtain rfl := Option.some.inj h
    exact .sweep hmain
  · next hmain =>
    obtain rfl := Option.some.inj h
    exact .startWaiting hmain
  · next hmain =>
    split at h
    · next hnone =>
      obtain rfl := Option.some.inj h
      exact .wait hmain hnone
    · simp at h
  · next hmain =>
    obtain rfl := Option.some.inj h
    exact .delete hmain
  · simp at h
  · simp at h

/-- Every step is a move. -/
theorem move_of_step {a : Action} (h : step processRequest errorPage s a = some s') :
    Move processRequest errorPage s a s' := by
  cases a with
  | fetch pool =>
    change s.fetch pool = some s' at h
    unfold Server.fetch at h
    split at h
    · next hfetch =>
      obtain rfl := Option.some.inj h
      exact .fetch hfetch
    · simp at h
  | tick i => exact move_of_tick h
  | read i outcome n k =>
    obtain ⟨t, htask, h⟩ := Option.bind_eq_some_iff.mp h
    obtain ⟨ht, huses⟩ := task_eq_some htask
    unfold read at h
    split at h
    · next hcond =>
      obtain ⟨pass, hpass, rfl⟩ := Option.map_eq_some_iff.mp h
      exact .read ht hcond.1 hcond.2.1 hcond.2.2 hpass (huses (by rw [hcond.1]; rfl))
    · simp at h
  | write i env =>
    obtain ⟨t, htask, h⟩ := Option.bind_eq_some_iff.mp h
    obtain ⟨ht, huses⟩ := task_eq_some htask
    unfold write at h
    split at h
    · next pc hpc =>
      split at h
      · simp at h
      · next hopen =>
        obtain ⟨pass, hpass, rfl⟩ := Option.map_eq_some_iff.mp h
        refine .write ht hpc (fun hnone => ?_) hpass (huses (by rw [hpc]; rfl))
        by_contra hwrite
        exact hopen ⟨hnone, hwrite⟩
    · simp at h
  | process i env =>
    obtain ⟨t, htask, h⟩ := Option.bind_eq_some_iff.mp h
    obtain ⟨ht, huses⟩ := task_eq_some htask
    unfold process at h
    split at h
    · next hpc =>
      obtain ⟨⟨conn, response⟩, hworker, rfl⟩ := Option.map_eq_some_iff.mp h
      exact .process ht hpc hworker (huses (by rw [hpc]; rfl))
    · simp at h
  | main => exact move_of_mainTick h
  | poll reports =>
    change s.poll reports = some s' at h
    unfold Server.poll at h
    split at h
    · next hcond =>
      obtain rfl := Option.some.inj h
      exact .poll hcond.1 (List.all_eq_true.mp hcond.2)
    · simp at h
  | accept fd added =>
    change s.accept fd added = some s' at h
    unfold Server.accept at h
    split at h
    · next hmain =>
      split at h
      · next hfd =>
        obtain rfl := Option.some.inj h
        cases added with
        | true => exact .accept hmain hfd.1 hfd.2
        | false => exact .turnAway hmain hfd.1 hfd.2
      · simp at h
    · simp at h
  | acceptNone =>
    change s.acceptNone = some s' at h
    unfold Server.acceptNone at h
    split at h
    · next hmain =>
      obtain rfl := Option.some.inj h
      exact .acceptNone hmain
    · simp at h
  | arrive c n =>
    change s.arrive c n = some s' at h
    unfold Server.arrive at h
    split at h
    · next hcond =>
      obtain rfl := Option.some.inj h
      exact .arrive hcond.1 hcond.2
    · simp at h
  | openFile fd =>
    change s.openFile fd = some s' at h
    unfold Server.openFile at h
    split at h
    · next hfree =>
      obtain rfl := Option.some.inj h
      exact .openFile hfree
    · simp at h
  | closeFile fd =>
    change s.closeFile fd = some s' at h
    unfold Server.closeFile at h
    split at h
    · next hfile =>
      obtain rfl := Option.some.inj h
      exact .closeFile hfile
    · simp at h

end Server

end Khttp
