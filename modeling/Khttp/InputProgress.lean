import Khttp.DescriptorOwnership
import Khttp.ErrorResponses
import Khttp.ServerThreads

/-!
# Input that waits to be read

`epoll` reports bytes once, when they arrive. A read pass stops behind the first `read` that
returns bytes, since `if (error = true)` is an assignment, and its item is finished. Where
more bytes wait than that `read` takes, nothing calls for another pass. Where each `read`
takes all that waits, a read pass is always on its way to waiting bytes.
-/

namespace Khttp

open Lib

/-- The events that the main loop has still to look at. -/
def MainPc.events : MainPc → List EpollEvent
  | .handling events | .accepting events | .enlisted _ events | .adding _ _ _ _ events => events
  | _ => []

namespace Server

variable {processRequest : ServerEnv → HttpRequest → Option (Option HttpResponse)}
  {errorPage : Option Bytes} {s s' : Server} {a : Action} {c : ℕ}

/-- The main loop has a report of `EPOLLIN` before it, or is at adding an item for it. -/
def Reported (s : Server) (c : ℕ) : Prop :=
  (∃ mask blocks, .client c mask blocks ∈ s.main.events ∧ mask.epollin = true) ∨
    ∃ mask blocks events, s.main = .adding c .poolRead mask blocks events

/-- Bytes have arrived since the last report of `EPOLLIN` that was handled. -/
def EdgePending (s : Server) (c : ℕ) : Prop := s.kernel.inEdge c = true ∨ s.Reported c

/-- Unread bytes of a connection without an error lie where no thread will look for them. -/
structure Stranded (s : Server) (c : ℕ) : Prop where
  /-- The connection is open. -/
  isOpen : (s.conns c).out.closed = false
  /-- It has no error. -/
  noError : (s.conns c).out.error = false
  /-- No error response of the read loop is queued. -/
  noErrorQueued : ¬(s.conns c).out.ErrorQueued
  /-- Bytes wait. -/
  unread : 0 < s.kernel.unread c
  /-- All reports of them have been handled. -/
  handled : ¬s.EdgePending c
  /-- The read queue has no item for the connection that can be fetched. -/
  blocked : ∀ item ∈ (s.pools .poolRead).list, item.data = c → item.blocked = true
  /-- No read thread holds one. -/
  noThread : ∀ t ∈ s.tasks, t.pool = .poolRead → t.item.data ≠ c

/-- How many bytes wait behind the descriptor number of a connection. -/
def waiting (s : Server) (c : ℕ) : ℕ :=
  match s.target c with
  | some (.socket d) => s.kernel.unread d
  | _ => 0

/-- A `read` that returns bytes takes all that wait, unless they are refused. -/
def TakesAll (s : Server) (a : Action) : Prop :=
  ∀ received ∈ a.receives, ∀ t ∈ s.tasks[received.1]?,
    (s.conns t.item.data).refuses received.2.1 = false → s.waiting t.item.data ≤ received.2.2

instance (s : Server) (a : Action) : Decidable (s.TakesAll a) :=
  inferInstanceAs (Decidable (∀ received ∈ a.receives, ∀ t ∈ s.tasks[received.1]?,
    (s.conns t.item.data).refuses received.2.1 = false → s.waiting t.item.data ≤ received.2.2))

/-- Bytes wait only at the socket that the number of their connection refers to. -/
def UnreadOpen (s : Server) : Prop :=
  ∀ c, 0 < s.kernel.unread c → s.target c = some (.socket c)

/-- Closing a number empties the receive buffer of the socket that it refers to. -/
theorem unread_close (k : Kernel) (fd c : ℕ) :
    (k.close fd).unread c = if k.fds fd = some (.socket c) then 0 else k.unread c := by
  unfold Kernel.close
  split
  · next hfree => simp [hfree]
  · next hfile => simp [hfile]
  · next d hsocket =>
    by_cases hd : c = d
    · subst hd
      simp [hsocket]
    · simp [hsocket, hd, Ne.symm hd]

/-- Reading takes bytes from the socket that the number refers to. -/
theorem unread_consume (k : Kernel) (target : Option Descriptor) (n c : ℕ)
    (outcome : SocketRead) :
    (k.consume target n outcome).unread c = k.unread c ∨
      (∃ run, outcome = .data run) ∧ target = some (.socket c) ∧
        (k.consume target n outcome).unread c = k.unread c - n := by
  unfold Kernel.consume
  split
  · next run =>
    split
    · next d =>
      by_cases hd : c = d
      · subst hd
        exact Or.inr ⟨⟨run, rfl⟩, rfl, by simp⟩
      · exact Or.inl (by simp [hd])
    · exact Or.inl rfl
  · exact Or.inl rfl

/-- A number that is free is not that of an open socket. -/
theorem number_ne {fd : ℕ} (hfree : s.kernel.fds fd = none)
    (hopen : s.target c = some (.socket c)) : (s.conns c).fd ≠ fd := by
  rintro rfl
  rw [target, hfree] at hopen
  simp at hopen

/-- What a step does to the kernel. -/
inductive KernelMove (s : Server) : Action → Kernel → Prop
  /-- Nothing. -/
  | same {a : Action} : KernelMove s a s.kernel
  /-- A `read` takes bytes. -/
  | consumed {a : Action} (c n : ℕ) (outcome : SocketRead) :
      KernelMove s a (s.kernel.consume (s.target c) n outcome)
  /-- A number is closed. -/
  | closed {a : Action} (fd : ℕ) : KernelMove s a (s.kernel.close fd)
  /-- `epoll_wait` returns. -/
  | polled {reports : List Report} (htrue : ∀ report ∈ reports, s.mayReport report = true) :
      KernelMove s (.poll reports) (s.polled reports).kernel
  /-- A socket is accepted. -/
  | accepted {fd : ℕ} (hfree : s.kernel.fds fd = none) :
      KernelMove s (.accept fd true) (s.acceptSocket fd).kernel
  /-- A socket is accepted and closed at once. -/
  | turnedAway {fd : ℕ} (hfree : s.kernel.fds fd = none) :
      KernelMove s (.accept fd false) ((s.acceptSocket fd).kernel.close fd)
  /-- Bytes arrive. -/
  | arrived {c n : ℕ} (hopen : s.target c = some (.socket c)) :
      KernelMove s (.arrive c n) (s.arrived c n).kernel
  /-- A file is opened. -/
  | opened {fd : ℕ} (hfree : s.kernel.fds fd = none) :
      KernelMove s (.openFile fd) (s.opened fd).kernel

/-- A step does one of these things to the kernel. -/
theorem kernelMove_of_move (h : Move processRequest errorPage s a s') :
    s.KernelMove a s'.kernel := by
  cases h with
  | read => exact .consumed _ _ _
  | @write i t env pc pass =>
    by_cases hcloses : .close ∈ pass.calls
    · simpa only [written, if_pos hcloses] using KernelMove.closed _
    · simpa only [written, if_neg hcloses] using KernelMove.same
  | hangUp | closeFile => exact .closed _
  | unblock =>
    unfold unblockOr
    split <;> exact .same
  | closeFailed =>
    unfold closeFailed
    split
    · exact .closed _
    · exact .same
  | poll _ htrue => exact .polled htrue
  | accept _ _ hfree => exact .accepted hfree
  | @turnAway fd _ _ _ hfree =>
    have hkernel : (s.turnAway fd).kernel = (s.acceptSocket fd).kernel.close fd := by
      simp [turnAway, sktClose, acceptSocket, ServerConnection.new]
    rw [hkernel]
    exact .turnedAway hfree
  | arrive hopen _ => exact .arrived hopen
  | openFile hfree => exact .opened hfree
  | _ => exact .same

/-- No bytes wait for a connection whose name is given out. -/
theorem unread_accepted {fd : ℕ} {added : Bool}
    (h : Move processRequest errorPage s (.accept fd added) s') :
    s'.kernel.unread s.accepted = 0 := by
  cases h with
  | accept => simp [enlist, acceptSocket]
  | turnAway => simp [turnAway, sktClose, acceptSocket, unread_close]

/-- Bytes arrive with an edge. -/
theorem unread_of_move (h : Move processRequest errorPage s a s') (c : ℕ) :
    s'.kernel.unread c ≤ s.kernel.unread c ∨ s'.kernel.inEdge c = true := by
  have hclose (k : Kernel) (fd : ℕ) : (k.close fd).unread c ≤ k.unread c := by
    rw [unread_close]
    split <;> omega
  have haccept (fd : ℕ) : (s.acceptSocket fd).kernel.unread c ≤ s.kernel.unread c := by
    by_cases hnew : c = s.accepted <;> simp [acceptSocket, hnew]
  have hkernel := kernelMove_of_move h
  generalize s'.kernel = k at hkernel ⊢
  cases hkernel with
  | same | polled | opened => exact Or.inl le_rfl
  | consumed d n outcome =>
    left
    rcases unread_consume s.kernel (s.target d) n c outcome with hsame | ⟨_, _, hless⟩
    · exact le_of_eq hsame
    · exact hless.trans_le (Nat.sub_le _ _)
  | closed fd => exact Or.inl (hclose _ fd)
  | @accepted fd => exact Or.inl (haccept fd)
  | @turnedAway fd => exact Or.inl ((hclose _ fd).trans (haccept fd))
  | @arrived d n =>
    by_cases hd : c = d
    · exact Or.inr (by simp [Server.arrived, hd])
    · exact Or.inl (by simp [Server.arrived, hd])

/-- Every step leaves bytes waiting at open sockets only. -/
theorem UnreadOpen.of_move (hs : s.UnreadOpen) (h : Move processRequest errorPage s a s') :
    s'.UnreadOpen := by
  intro c hpos
  have hnew : ¬(c = s.accepted ∧ ∃ fd added, a = .accept fd added) := by
    rintro ⟨rfl, fd, added, rfl⟩
    have hzero := unread_accepted h
    omega
  have haccepted {fd : ℕ} {added : Bool} (ha : a = .accept fd added) : c ≠ s.accepted :=
    fun hc => hnew ⟨hc, fd, added, ha⟩
  rw [target, (connMove_of_move h c).fd_or.resolve_right hnew]
  have hkernel := kernelMove_of_move h
  generalize s'.kernel = k at hkernel hpos ⊢
  cases hkernel with
  | same | polled => exact hs c hpos
  | consumed d n outcome =>
    rw [fds_consume]
    refine hs c ?_
    rcases unread_consume s.kernel (s.target d) n c outcome with hsame | ⟨_, _, hless⟩ <;> omega
  | closed fd =>
    rw [unread_close] at hpos
    split at hpos
    · omega
    · next hother =>
      have hbefore := hs c hpos
      have hne : (s.conns c).fd ≠ fd := by
        rintro rfl
        exact hother hbefore
      rwa [fds_close, Function.update_of_ne hne]
  | @accepted fd hfree =>
    have hbefore := hs c (by simpa [acceptSocket, haccepted rfl] using hpos)
    simpa [acceptSocket, number_ne hfree hbefore, target] using hbefore
  | @turnedAway fd hfree =>
    have hbefore : s.target c = some (.socket c) := by
      refine hs c ?_
      simpa [acceptSocket, unread_close, haccepted rfl, Ne.symm (haccepted rfl)] using hpos
    rw [fds_close, Function.update_of_ne (number_ne hfree hbefore)]
    simpa [acceptSocket, number_ne hfree hbefore, target] using hbefore
  | @arrived d n hopen =>
    by_cases hd : c = d
    · exact hd ▸ hopen
    · exact hs c (by simpa [Server.arrived, hd] using hpos)
  | opened hfree =>
    have hbefore := hs c hpos
    simpa [Server.opened, number_ne hfree hbefore, target] using hbefore

/-- `queue_unblock_byptr` that finds an item leaves one that can be fetched. -/
theorem exists_unblocked {queue : Queue ℕ} (h : (queue.unblockByptr c).2 ≠ 0) :
    ∃ item ∈ (queue.unblockByptr c).1.list, item.data = c ∧ item.blocked = false := by
  obtain ⟨item, hitem, hdata⟩ := List.countP_pos_iff.mp (Nat.pos_of_ne_zero h)
  have hdata : item.data = c := by simpa using hdata
  refine ⟨{ item with blocked := false }, ?_, hdata, rfl⟩
  exact List.mem_map.mpr ⟨item, hitem, by rw [if_pos hdata]⟩

/-- A new item can be fetched. -/
theorem runnable_addItem (s : Server) (pool : ServerPool) (c : ℕ) :
    (s.addItem pool c).Runnable pool c :=
  Or.inl ⟨⟨s.nextItem, false, c⟩, by simp [addItem], rfl, rfl⟩

/-- A report of `EPOLLIN` stays before the main loop until it is handled. -/
theorem Reported.of_move (hs : s.Reported c) (h : Move processRequest errorPage s a s') :
    s'.Reported c ∨ s'.Runnable .poolRead c ∨ (s'.conns c).out.closed = true := by
  -- the main loop keeps the events that it has still to look at
  have hkept (hevents : s'.main.events = s.main.events)
      (hadding : ∀ mask blocks events, s.main ≠ .adding c .poolRead mask blocks events) :
      s'.Reported c := by
    rcases hs with ⟨mask, blocks, hmem, hin⟩ | ⟨mask, blocks, events, hmain⟩
    · exact Or.inl ⟨mask, blocks, hevents ▸ hmem, hin⟩
    · exact absurd hmain (hadding mask blocks events)
  have hnone (hevents : s.main.events = [])
      (hadding : ∀ mask blocks events, s.main ≠ .adding c .poolRead mask blocks events) :
      s'.Reported c := by
    rcases hs with ⟨mask, blocks, hmem, hin⟩ | ⟨mask, blocks, events, hmain⟩
    · simp [hevents] at hmem
    · exact absurd hmain (hadding mask blocks events)
  cases h with
  | startCleaning hmain | endCleaning hmain | closeFailed hmain | startSweeping hmain
  | skip hmain | sweep hmain | startWaiting hmain | wait hmain | delete hmain | poll hmain =>
    exact Or.inl (hnone (by rw [hmain]; rfl) (by simp [hmain]))
  | accept hmain | acceptNone hmain | addFirst hmain =>
    exact Or.inl (hkept (by rw [hmain]; rfl) (by simp [hmain]))
  | listen hmain =>
    rcases hs with ⟨mask, blocks, hmem, hin⟩ | ⟨mask, blocks, events, hadding⟩
    · rw [hmain] at hmem
      exact Or.inl (Or.inl ⟨mask, blocks, by simpa [MainPc.events, atMain] using hmem, hin⟩)
    · simp [hmain] at hadding
  | @hangUp d blocks mask events hmain _ _ =>
    rcases hs with ⟨mask', blocks', hmem, hin⟩ | ⟨mask', blocks', events', hadding⟩
    · rw [hmain] at hmem
      rcases List.mem_cons.mp hmem with hhead | htail
      · obtain ⟨rfl, _, _⟩ := EpollEvent.client.inj hhead
        exact Or.inr (Or.inr (by simp [atMain, sktClose]))
      · exact Or.inl (Or.inl ⟨mask', blocks', htail, hin⟩)
    · simp [hmain] at hadding
  | @unblock d blocks mask events hmain _ _ =>
    rcases hs with ⟨mask', blocks', hmem, hin⟩ | ⟨mask', blocks', events', hadding⟩
    · rw [hmain] at hmem
      unfold unblockOr
      rcases List.mem_cons.mp hmem with hhead | htail
      · obtain ⟨rfl, rfl, rfl⟩ := EpollEvent.client.inj hhead
        split
        · refine Or.inl (Or.inr ⟨mask', blocks', events, ?_⟩)
          simp [atMain, EventMask.pool, hin]
        · next hfound =>
          right
          left
          obtain ⟨item, hitem, hdata, hblocked⟩ := exists_unblocked hfound
          exact Or.inl ⟨item, by simpa [finishEvent, Server.unblock] using hitem, hdata, hblocked⟩
      · left
        split
        · exact Or.inl ⟨mask', blocks', htail, hin⟩
        · exact Or.inl ⟨mask', blocks', htail, hin⟩
    · simp [hmain] at hadding
  | @addAnother d blocks pool mask events hmain =>
    rcases hs with ⟨mask', blocks', hmem, hin⟩ | ⟨mask', blocks', events', hadding⟩
    · rw [hmain] at hmem
      exact Or.inl (Or.inl ⟨mask', blocks', hmem, hin⟩)
    · rw [hmain] at hadding
      obtain ⟨rfl, rfl, _, _, _⟩ := MainPc.adding.inj hadding
      exact Or.inr (Or.inl (runnable_addItem s .poolRead d))
  | _ => exact Or.inl hs

/-- Closing a number leaves the edge of a socket at which bytes go on waiting. -/
theorem inEdge_close {k : Kernel} {fd : ℕ} (hpos : 0 < (k.close fd).unread c) :
    (k.close fd).inEdge c = k.inEdge c := by
  rw [unread_close] at hpos
  split at hpos
  · omega
  · next hother =>
    unfold Kernel.close
    split
    · rfl
    · rfl
    · next d hsocket =>
      have hne : c ≠ d := by
        rintro rfl
        exact hother hsocket
      simp [hne]

/-- Reading leaves the edges. -/
theorem inEdge_consume (k : Kernel) (target : Option Descriptor) (n : ℕ) (outcome : SocketRead) :
    (k.consume target n outcome).inEdge = k.inEdge := by
  unfold Kernel.consume
  split
  · split <;> rfl
  · rfl

/-- The edge of a socket at which bytes go on waiting stays until it is reported. -/
theorem inEdge_of_move (hedge : s.kernel.inEdge c = true) (hpos : 0 < s.kernel.unread c)
    (hpos' : 0 < s'.kernel.unread c) (h : Move processRequest errorPage s a s') :
    s'.EdgePending c := by
  have hkernel := kernelMove_of_move h
  generalize hk : s'.kernel = k at hkernel hpos'
  cases hkernel with
  | @polled reports htrue =>
    by_cases hany : reports.any (·.isOn c) = true
    · -- the report becomes an event with `EPOLLIN`
      obtain ⟨report, hreport, hon⟩ := List.any_eq_true.mp hany
      have hmay := htrue report hreport
      cases report with
      | listening => simp [Report.isOn] at hon
      | client d mask =>
        obtain rfl : d = c := by simpa [Report.isOn] using hon
        have hin : mask.epollin = true := by
          simp only [mayReport, decide_eq_true_eq] at hmay
          exact hmay.2.2 hpos
        cases h
        exact Or.inr (Or.inl ⟨mask, _, List.mem_map.mpr ⟨_, hreport, rfl⟩, hin⟩)
    · left
      rw [hk]
      simp only [Server.polled, hedge, Bool.true_and]
      simpa using hany
  | same | opened | accepted => exact Or.inl (hk ▸ hedge)
  | consumed d n outcome => exact Or.inl (by rw [hk, inEdge_consume, hedge])
  | closed fd => exact Or.inl (by rw [hk, inEdge_close hpos', hedge])
  | turnedAway =>
    left
    rw [hk, inEdge_close hpos']
    exact hedge
  | @arrived d n =>
    left
    rw [hk]
    by_cases hd : c = d
    · simp [Server.arrived, hd]
    · simpa [Server.arrived, hd] using hedge

/-- An edge is pending until it is handled. -/
theorem EdgePending.of_move (hs : s.EdgePending c) (hpos : 0 < s.kernel.unread c)
    (hpos' : 0 < s'.kernel.unread c) (h : Move processRequest errorPage s a s') :
    s'.EdgePending c ∨ s'.Runnable .poolRead c ∨ (s'.conns c).out.closed = true := by
  rcases hs with hedge | hreported
  · exact Or.inl (inEdge_of_move hedge hpos hpos' h)
  · rcases hreported.of_move h with hstays | hrunnable | hclosed
    · exact Or.inl (Or.inr hstays)
    · exact Or.inr (Or.inl hrunnable)
    · exact Or.inr (Or.inr hclosed)

/-- An error response stays queued until the connection is closed, unless its name is given
out. -/
theorem ConnMove.errorQueued_or {conn : ServerConnection}
    (h : ConnMove processRequest errorPage s c a conn) (hs : (s.conns c).out.ErrorQueued) :
    conn.out.ErrorQueued ∨ conn.out.closed = true ∨
      c = s.accepted ∧ ∃ fd added, a = .accept fd added := by
  cases h with
  | same => exact Or.inl hs
  | closed => exact Or.inr (Or.inl rfl)
  | accepted hc => exact Or.inr (Or.inr ⟨hc, _, _, rfl⟩)
  | read _ _ _ _ hpass =>
    obtain ⟨response, hresponse, herror⟩ := hs
    have hprefix := (readMove_of_serverLoopRead hpass).pendingResponses_kept
    exact Or.inl ⟨response, hprefix.subset hresponse, herror⟩
  | write _ _ hdata hpass =>
    have hs : (s.conns _).out.ErrorQueued := hdata ▸ hs
    rcases WritePass.step_errorQueued hs hpass with hstays | hclosed
    · exact Or.inl hstays
    · exact Or.inr (Or.inl hclosed)
  | process _ _ _ hworker =>
    obtain ⟨request, pending, _, rfl, _⟩ := serverLoopWorker_cases hworker
    obtain ⟨response, hresponse, herror⟩ := hs
    exact Or.inl ⟨response, List.mem_append_left _ hresponse, herror⟩

/-- A read thread that has locked the connection reads. -/
theorem read_of_move (h : Move processRequest errorPage s a s') {i : ℕ} {t : Task}
    (ha : a.task = some i) (ht : s.tasks[i]? = some t) (hpc : t.pc = .reading) :
    ∃ outcome n k pass, a = .read i outcome n k ∧ s' = s.readDone i t outcome n k pass ∧
      s.kernel.mayRead (s.target t.item.data) n outcome = true ∧
      serverLoopRead errorPage (s.conns t.item.data) outcome = some pass := by
  cases h with
  | read hu _ hmay _ hpass =>
    obtain rfl := eq_of_task_eq ha hu ht
    obtain rfl := Option.some.inj ha
    exact ⟨_, _, _, _, rfl, rfl, hmay, hpass⟩
  | unlock hu hother =>
    obtain rfl := eq_of_task_eq ha hu ht
    simp [hpc] at hother
  | lock hu hother _ | enqueue hu hother | resume hu hother _ | returnFinished hu hother _
  | returnUnfinished hu hother _ | readd hu hother | write hu hother _ _ | process hu hother _ =>
    obtain rfl := eq_of_task_eq ha hu ht
    simp [hpc] at hother
  | _ => simp [Action.task] at ha

/-- A read pass is on its way to the bytes that wait, or they have still to be reported. -/
def InputAttended (s : Server) (c : ℕ) : Prop :=
  0 < s.kernel.unread c → (s.conns c).out.closed = false → (s.conns c).out.error = false →
    ¬(s.conns c).out.ErrorQueued →
      s.EdgePending c ∨ s.Runnable .poolRead c ∨
        ∃ t ∈ s.tasks, t.pc = .reading ∧ t.item.data = c

/-- The read thread of a connection with waiting bytes takes them all, or they are refused, or
the connection gets an error. -/
theorem inputAttended_readDone {i : ℕ} {t : Task} {outcome : SocketRead} {n k : ℕ}
    {pass : ReadPass} (ht : s.tasks[i]? = some t) (hgood : s.TakesAll (.read i outcome n k))
    (htarget : s.target t.item.data = some (.socket t.item.data))
    (hmay : s.kernel.mayRead (s.target t.item.data) n outcome = true)
    (hpass : serverLoopRead errorPage (s.conns t.item.data) outcome = some pass)
    (hpos : 0 < s.kernel.unread t.item.data) :
    (s.readDone i t outcome n k pass).kernel.unread t.item.data = 0 ∨
      pass.conn.out.error = true ∨ pass.conn.out.ErrorQueued := by
  rw [htarget] at hmay
  cases outcome with
  | wouldBlock | eof =>
    have hzero : s.kernel.unread t.item.data = 0 := by simpa [Kernel.mayRead] using hmay
    omega
  | failed =>
    obtain rfl := Option.some.inj hpass
    exact Or.inr (Or.inl rfl)
  | data run =>
    cases hrefuses : (s.conns t.item.data).refuses run with
    | true => exact Or.inr (Or.inr (exists_isReadError_of_refuses hrefuses hpass))
    | false =>
      left
      have hall : s.waiting t.item.data ≤ n := hgood _ rfl t ht hrefuses
      rw [waiting, htarget] at hall
      have hall : s.kernel.unread t.item.data ≤ n := hall
      change (s.kernel.consume (s.target t.item.data) n (.data run)).unread t.item.data = 0
      rw [htarget]
      simp only [Kernel.consume, Function.update_self]
      omega

/-- Steps that take all waiting bytes leave a read pass on its way to those that arrive. -/
theorem InputAttended.of_move (hs : s.InputAttended c) (hunread : s.UnreadOpen)
    (hcleans : s.CleansClosed) (hgood : s.TakesAll a)
    (h : Move processRequest errorPage s a s') : s'.InputAttended c := by
  intro hpos' hopen' hnoError' hnoQueued'
  rcases unread_of_move h c with hle | hedge
  · have hpos : 0 < s.kernel.unread c := lt_of_lt_of_le hpos' hle
    have hconn := connMove_of_move h c
    have hnotNew : ¬(c = s.accepted ∧ ∃ fd added, a = .accept fd added) := by
      rintro ⟨rfl, fd, added, rfl⟩
      have hzero := unread_accepted h
      omega
    obtain ⟨hopen, hnoError⟩ := hconn.sound_before hnotNew hopen' hnoError'
    have hnoQueued : ¬(s.conns c).out.ErrorQueued := by
      intro hqueued
      rcases hconn.errorQueued_or hqueued with hstays | hclosed | hnew
      · exact hnoQueued' hstays
      · simp [hopen'] at hclosed
      · exact hnotNew hnew
    rcases hs hpos hopen hnoError hnoQueued with hedge | hrunnable | ⟨t, ht, hpc, rfl⟩
    · rcases hedge.of_move hpos hpos' h with hstays | hrunnable | hclosed
      · exact Or.inl hstays
      · exact Or.inr (Or.inl hrunnable)
      · simp [hopen'] at hclosed
    · right
      rcases hrunnable.of_move h with hstays | ⟨i, t, ht, hpool, rfl, rfl⟩ | ⟨pools, clients, hmain⟩
      · exact Or.inl hstays
      · right
        obtain ⟨u, hu, _, hdata, hpc⟩ := exists_locked ht
        rw [hpool] at hpc
        exact ⟨u, hu, hpc, hdata⟩
      · have hclosed := hcleans c (by rw [hmain]; rfl)
        simp [hopen] at hclosed
    · rcases mem_tasks_of_move h ht with hstays | ⟨i, ha, hit⟩
      · exact Or.inr (Or.inr ⟨t, hstays, hpc, rfl⟩)
      · obtain ⟨outcome, n, k, pass, rfl, rfl, hmay, hpass⟩ := read_of_move h ha hit hpc
        have hafter : ((s.readDone i t outcome n k pass).conns t.item.data) = pass.conn :=
          Function.update_self _ _ _
        rw [hafter] at hnoError' hnoQueued'
        rcases inputAttended_readDone hit hgood (hunread _ hpos) hmay hpass hpos with
          hzero | herror | hqueued
        · omega
        · simp [hnoError'] at herror
        · exact absurd hqueued hnoQueued'
  · exact Or.inl (Or.inl hedge)

/-- In every run in which each `read` that returns bytes takes all that wait, unless they are
refused, no input is stranded. -/
theorem not_stranded_of_meets {as : List Action} {s : Server}
    (hmeets : (machineWith processRequest errorPage).Meets TakesAll .start as)
    (hrun : (machineWith processRequest errorPage).run as = some s) (c : ℕ) : ¬s.Stranded c := by
  have hinv : s.InputAttended c ∧ s.UnreadOpen ∧ s.CleansClosed ∧ ∀ t ∈ s.tasks, t.Placed := by
    refine (machineWith processRequest errorPage).invariant TakesAll
      (fun s => s.InputAttended c ∧ s.UnreadOpen ∧ s.CleansClosed ∧ ∀ t ∈ s.tasks, t.Placed)
      ?_ ?_ hmeets hrun
    · rintro s a t ⟨hattended, hunread, hcleans, hplaced⟩ hgood hstep
      have hmove := move_of_step hstep
      exact ⟨hattended.of_move hunread hcleans hgood hmove, hunread.of_move hmove,
        hcleans.of_move hmove, placed_of_move hplaced hmove⟩
    · refine ⟨fun hpos => ?_, fun c hpos => ?_, fun c hmain => ?_, ?_⟩
      · simp [Server.start] at hpos
      · simp [Server.start] at hpos
      · simp [Server.start, MainPc.cleans] at hmain
      · simp [Server.start]
  intro hstranded
  rcases hinv.1 hstranded.unread hstranded.isOpen hstranded.noError hstranded.noErrorQueued with
    hedge | (⟨item, hitem, hdata, hblocked⟩ | ⟨t, ht, hpool, hdata, _⟩) | ⟨t, ht, hpc, hdata⟩
  · exact hstranded.handled hedge
  · simp [hstranded.blocked item hitem hdata] at hblocked
  · exact hstranded.noThread t ht hpool hdata
  · have hplaced := hinv.2.2.2 t ht
    rw [Task.Placed, hpc] at hplaced
    exact hstranded.noThread t ht hplaced hdata

/-- The reports of `epoll_wait`. -/
def Action.reports : Action → List Report
  | .poll reports => reports
  | _ => []

/-- Where the report raises `EPOLLIN`, bytes have arrived since the last one. -/
def Report.OnEdge (s : Server) : Report → Prop
  | .listening => True
  | .client c mask => mask.epollin = true → s.kernel.inEdge c = true

instance (s : Server) (report : Report) : Decidable (report.OnEdge s) :=
  match report with
  | .listening => isTrue trivial
  | .client c mask => inferInstanceAs (Decidable (mask.epollin = true → s.kernel.inEdge c = true))

/-- `epoll_wait` raises `EPOLLIN` only when bytes arrive. -/
def EdgeTriggered (s : Server) (a : Action) : Prop := ∀ report ∈ a.reports, report.OnEdge s

instance (s : Server) (a : Action) : Decidable (s.EdgeTriggered a) :=
  inferInstanceAs (Decidable (∀ report ∈ a.reports, report.OnEdge s))

/-- A client connects and sends bytes that begin no request; one read pass follows. -/
def blankLines (sent taken : ℕ) : List Action :=
  [.poll [.listening], .main, .accept 5 true, .main, .acceptNone, .main, .main, .main, .main,
    .arrive 0 sent, .poll [.client 0 ⟨false, false, true, false⟩], .main, .fetch .poolRead,
    .tick 0, .read 0 (.data ⟨[], false, true, []⟩) taken 1, .tick 0, .tick 0, .tick 0]

/-- Bytes that arrive behind a pass that has taken all are not stranded. -/
theorem not_stranded_blankLines : ∃ s,
    (serverMachine (configServerNew []) none).run (blankLines 9000 9000 ++ [.arrive 0 5]) =
      some s ∧ s.kernel.unread 0 = 5 ∧ ¬s.Stranded 0 := by
  have hunread : ((serverMachine (configServerNew []) none).run
      (blankLines 9000 9000 ++ [.arrive 0 5])).map (·.kernel.unread 0) = some 5 := by
    decide +kernel
  obtain ⟨s, hrun, hs⟩ := Option.map_eq_some_iff.mp hunread
  exact ⟨s, hrun, hs, not_stranded_of_meets (by decide +kernel) hrun 0⟩

/-- What one `read` leaves of 20000 bytes is stranded. -/
theorem stranded_blankLines : ∃ s,
    (serverMachine (configServerNew []) none).run (blankLines 20000 16384) = some s ∧
      (serverMachine (configServerNew []) none).Meets EdgeTriggered .start
        (blankLines 20000 16384) ∧ s.Stranded 0 := by
  have hthreads : ((serverMachine (configServerNew []) none).run (blankLines 20000 16384)).map
      (fun s => (s.main, s.tasks, (s.pools .poolRead).list)) = some (.handling [], [], []) := by
    decide +kernel
  have hconn : ((serverMachine (configServerNew []) none).run (blankLines 20000 16384)).map
      (fun s => ((s.conns 0).out.closed, (s.conns 0).out.error,
        (s.conns 0).out.pendingResponses.length, s.kernel.unread 0, s.kernel.inEdge 0)) =
        some (false, false, 0, 3616, false) := by decide +kernel
  obtain ⟨s, hrun, hs⟩ := Option.map_eq_some_iff.mp hthreads
  simp only [hrun, Option.map_some, Option.some.injEq, Prod.mk.injEq] at hs hconn
  obtain ⟨hmain, htasks, hlist⟩ := hs
  obtain ⟨hclosed, herror, hresponses, hunread, hedge⟩ := hconn
  refine ⟨s, hrun, by decide +kernel, hclosed, herror, ?_, by omega, ?_, ?_, ?_⟩
  · rintro ⟨response, hresponse, _⟩
    rw [List.length_eq_zero_iff.mp hresponses] at hresponse
    simp at hresponse
  · rintro (hin | ⟨mask, blocks, hmem, _⟩ | ⟨mask, blocks, events, hadding⟩)
    · simp [hedge] at hin
    · simp [hmain, MainPc.events] at hmem
    · simp [hmain] at hadding
  · simp [hlist]
  · simp [htasks]

end Server

end Khttp
