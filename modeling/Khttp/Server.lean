import Khttp.HttpServer
import Khttp.Queue
import Khttp.ReadPass
import Mathlib.Logic.Function.Basic

/-!
# The running server

The main loop, the threads of the three pools and the kernel as one machine. A step
is a section under one mutex, one system call, or one test. A thread that holds an item
is a task; which thread it is plays no part. A step that uses the memory of a deleted
connection has no result. Connections are named by the order in which they were
accepted, so no name is used twice.
-/

namespace Khttp

open Lib

/-- What an open descriptor number refers to. -/
inductive Descriptor where
  /-- The socket accepted for a connection. -/
  | socket (c : ℕ)
  /-- A file that some thread has opened. -/
  | file
  deriving DecidableEq, Repr

/-- What the kernel keeps. -/
structure Kernel where
  /-- The open descriptor numbers. -/
  fds : ℕ → Option Descriptor
  /-- How many bytes wait in the receive buffer of a connection's socket. -/
  unread : ℕ → ℕ
  /-- Whether bytes have arrived since `epoll_wait` last reported the connection. -/
  inEdge : ℕ → Bool

/-- The kinds of system calls on the descriptor of a connection. -/
inductive CallKind where
  | read
  | write
  | close
  deriving DecidableEq, Repr

/-- A system call on the descriptor of a connection. -/
structure Call where
  /-- The connection. -/
  conn : ℕ
  /-- The kind. -/
  kind : CallKind
  /-- What the descriptor number referred to. -/
  target : Option Descriptor
  deriving DecidableEq, Repr

/-- A response that was appended to `pending_responses`. -/
structure Appended where
  /-- The number of the input that caused it. -/
  cause : ℕ
  /-- Its status code. -/
  code : UInt16
  deriving DecidableEq, Repr

/-- What has happened so far, for stating properties: no step reads it. -/
structure History where
  /-- The system calls in order. -/
  calls : List Call
  /-- The responses appended for each connection in order. -/
  appended : ℕ → List Appended
  /-- The number of the input that each pending request came from. -/
  causes : ℕ → List ℕ
  /-- The requests appended to `pending_requests` of each connection in order. -/
  requests : ℕ → List HttpRequest
  /-- The responses that workers appended for each connection in order. -/
  answers : ℕ → List HttpResponse
  /-- How many writes on a connection would have blocked. -/
  blocks : ℕ → ℕ
  /-- How many of them came before the last report of `EPOLLOUT` that was handled. -/
  outHandled : ℕ → ℕ

/-- The masks of `epoll_wait`. -/
structure EventMask where
  /-- `EPOLLERR`. -/
  epollerr : Bool
  /-- `EPOLLRDHUP`. -/
  epollrdhup : Bool
  /-- `EPOLLIN`. -/
  epollin : Bool
  /-- `EPOLLOUT`. -/
  epollout : Bool
  deriving DecidableEq, Repr

namespace EventMask

/-- The mask closes the connection. -/
def hangsUp (mask : EventMask) : Bool :=
  mask.epollerr || !(mask.epollin || mask.epollout || mask.epollrdhup) || mask.epollrdhup

/-- The pool whose queue the mask may add an item to. -/
def pool (mask : EventMask) : ServerPool := if mask.epollin then .poolRead else .poolWrite

end EventMask

/-- An element of `events`. -/
inductive EpollEvent where
  /-- Connections wait at the listening socket. -/
  | listening
  /-- An event on a connection, with the number of writes that had blocked before it. -/
  | client (c : ℕ) (mask : EventMask) (blocks : ℕ)
  deriving DecidableEq, Repr

/-- The positions of `server_loop`. -/
inductive MainPc where
  /-- At `epoll_wait`. -/
  | polling
  /-- At the head of the loop over the events. -/
  | handling (events : List EpollEvent)
  /-- In the loop that accepts connections. -/
  | accepting (events : List EpollEvent)
  /-- A connection is in the list of clients and its first item is to be added. -/
  | enlisted (c : ℕ) (events : List EpollEvent)
  /-- `queue_unblock_byptr` found no item and one is to be added. -/
  | adding (c : ℕ) (pool : ServerPool) (mask : EventMask) (blocks : ℕ) (events : List EpollEvent)
  /-- At the head of the loop over the clients. -/
  | cleaning (clients : List ℕ)
  /-- At the test for a closed connection. -/
  | tested (c : ℕ) (clients : List ℕ)
  /-- In the loop of `queue_remove_byptr`. -/
  | sweeping (c : ℕ) (pools : List ServerPool) (clients : List ℕ)
  /-- In the loop of `queue_pending_waitptr`. -/
  | waiting (c : ℕ) (pools : List ServerPool) (clients : List ℕ)
  deriving DecidableEq, Repr

/-- The positions of a thread that holds an item. -/
inductive TaskPc where
  /-- Before `CONN_LOCK`. -/
  | fetched
  /-- At the `read` of `server_loop_read`. -/
  | reading
  /-- In the pass of `server_loop_write`. -/
  | writing (pc : WritePc)
  /-- At the head of the loop of `server_loop_worker`. -/
  | working
  /-- At the calls of `CONN_ENQUEUE` for these pools. -/
  | enqueuing (pools : List ServerPool)
  /-- Behind `CONN_UNLOCK`. -/
  | returning
  /-- In an unfinished `queue_return_item`, before its `queue_add`. -/
  | readding
  deriving DecidableEq, Repr

/-- A thread that goes on from here uses the memory of its connection: the mutex, the socket, the
lists, or the way to the pools in `CONN_ENQUEUE`. Behind `CONN_UNLOCK` only the item is used. -/
def TaskPc.usesConnection : TaskPc → Bool
  | .returning | .readding => false
  | .fetched | .reading | .writing _ | .working | .enqueuing _ => true

/-- A thread that holds an item. -/
structure Task where
  /-- The pool of the thread. -/
  pool : ServerPool
  /-- The item. -/
  item : QueueItem ℕ
  /-- The position. -/
  pc : TaskPc
  deriving DecidableEq, Repr

/-- `finished` in the call of `queue_return_item`. -/
def Task.finished (t : Task) : Bool := t.pool = .poolWorker || !t.item.blocked

/-- The state of the server. -/
structure Server where
  /-- The connections, in the order in which they were accepted. -/
  conns : ℕ → ServerConnection
  /-- The mutexes of the connections. -/
  locked : ℕ → Bool
  /-- Whether `server_connection_delete` has been called. -/
  deleted : ℕ → Bool
  /-- How many connections have been accepted. -/
  accepted : ℕ
  /-- `state->pools`. -/
  pools : ServerPool → Queue ℕ
  /-- The counter of `queue_item_new`. -/
  nextItem : ℕ
  /-- The threads that hold an item. -/
  tasks : List Task
  /-- `state->clients`. -/
  clients : List ℕ
  /-- The position of the main loop. -/
  main : MainPc
  /-- The kernel. -/
  kernel : Kernel
  /-- The number of the input that a connection was last read from. -/
  input : ℕ → ℕ
  /-- What has happened so far. -/
  history : History

/-- The pools in the order of their numbers. -/
def allPools : List ServerPool := [.poolRead, .poolWrite, .poolWorker]

/-- The server before its first connection. A name that is not given out counts as closed. -/
def Server.start : Server where
  conns := fun _ => { ServerConnection.new 0 with out.closed := true }
  locked := fun _ => false
  deleted := fun _ => false
  accepted := 0
  pools := fun _ => .new
  nextItem := 1
  tasks := []
  clients := []
  main := .polling
  kernel := ⟨fun _ => none, fun _ => 0, fun _ => false⟩
  input := fun _ => 0
  history := ⟨[], fun _ => [], fun _ => [], fun _ => [], fun _ => [], fun _ => 0, fun _ => 0⟩

namespace Kernel

/-- `close` of a descriptor number. A socket that is closed loses its receive buffer. -/
def close (k : Kernel) (fd : ℕ) : Kernel :=
  match k.fds fd with
  | none => k
  | some .file => { k with fds := Function.update k.fds fd none }
  | some (.socket c) =>
    { fds := Function.update k.fds fd none
      unread := Function.update k.unread c 0
      inEdge := Function.update k.inEdge c false }

/-- How many bytes a `read` may return: some of those that wait. -/
def mayRead (k : Kernel) (target : Option Descriptor) (n : ℕ) : SocketRead → Bool
  | .failed => true
  | .wouldBlock | .eof =>
    match target with
    | none => false
    | some .file => true
    | some (.socket c) => k.unread c = 0
  | .data _ =>
    match target with
    | none => false
    | some .file => true
    | some (.socket c) => 0 < n ∧ n ≤ k.unread c ∧ n ≤ 16 * 1024

/-- The bytes that a `read` returned leave the receive buffer. -/
def consume (k : Kernel) (target : Option Descriptor) (n : ℕ) : SocketRead → Kernel
  | .data _ =>
    match target with
    | some (.socket c) => { k with unread := Function.update k.unread c (k.unread c - n) }
    | _ => k
  | _ => k

end Kernel

namespace Server

variable (s : Server)

/-- A task that may go on: it uses no memory that `server_connection_delete` has freed. -/
def task (i : ℕ) : Option Task :=
  (s.tasks[i]?).filter fun t => !(t.pc.usesConnection && s.deleted t.item.data)

/-- What the descriptor number of a connection refers to. -/
def target (c : ℕ) : Option Descriptor := s.kernel.fds (s.conns c).fd

/-- `queue_add` of a new item. -/
def addItem (pool : ServerPool) (c : ℕ) : Server :=
  { s with
    pools := Function.update s.pools pool ((s.pools pool).add ⟨s.nextItem, false, c⟩)
    nextItem := s.nextItem + 1 }

/-- A new position of a task, with its `item->blocked`. -/
def moveTask (i : ℕ) (t : Task) (blocked : Bool) (pc : TaskPc) : Server :=
  { s with tasks := s.tasks.set i { t with item := { t.item with blocked }, pc } }

/-- `skt_close`. -/
def sktClose (c : ℕ) : Server :=
  { s with
    kernel := s.kernel.close (s.conns c).fd
    conns := Function.update s.conns c { s.conns c with out.closed := true }
    history := { s.history with calls := s.history.calls ++ [⟨c, .close, s.target c⟩] } }

/-- A thread of a pool has fetched an item and left the queue so. -/
def fetched (pool : ServerPool) (queue : Queue ℕ) (item : QueueItem ℕ) : Server :=
  { s with
    pools := Function.update s.pools pool queue
    tasks := s.tasks ++ [⟨pool, item, .fetched⟩] }

/-- `queue_fetchone` past its wait, by a thread of a pool. -/
def fetch (pool : ServerPool) : Option Server :=
  match (s.pools pool).fetchone with
  | (queue, some item) => some (s.fetched pool queue item)
  | (_, none) => none

/-- Where a thread of a pool goes on when it has locked the connection. -/
def entry : ServerPool → TaskPc
  | .poolRead => .reading
  | .poolWrite => .writing .drainFirst
  | .poolWorker => .working

/-- `CONN_LOCK` on a free mutex. -/
def lock (i : ℕ) (t : Task) : Server :=
  { s.moveTask i t t.item.blocked (entry t.pool) with
    locked := Function.update s.locked t.item.data true }

/-- `CONN_UNLOCK`. -/
def unlock (i : ℕ) (t : Task) : Server :=
  { s.moveTask i t t.item.blocked .returning with
    locked := Function.update s.locked t.item.data false }

/-- `CONN_ENQUEUE`, with more of them to come. -/
def enqueue (i : ℕ) (t : Task) (pool : ServerPool) (pools : List ServerPool) : Server :=
  (s.addItem pool t.item.data).moveTask i t t.item.blocked (.enqueuing pools)

/-- The first section of `queue_return_item`: the token goes. -/
def dropToken (t : Task) : Server :=
  { s with pools := Function.update s.pools t.pool ((s.pools t.pool).pendingRemove t.item.id) }

/-- A finished item is returned. -/
def returnFinished (i : ℕ) (t : Task) : Server :=
  { s.dropToken t with tasks := s.tasks.eraseIdx i }

/-- An unfinished item is returned, up to the `queue_add`. -/
def returnUnfinished (i : ℕ) (t : Task) : Server :=
  (s.dropToken t).moveTask i t t.item.blocked .readding

/-- The `queue_add` in an unfinished `queue_return_item`. -/
def readdItem (i : ℕ) (t : Task) : Server :=
  { s with
    pools := Function.update s.pools t.pool ((s.pools t.pool).add t.item)
    tasks := s.tasks.eraseIdx i }

/-- The steps of a task that depend on nothing outside. -/
def tick (i : ℕ) (t : Task) : Option Server :=
  match t.pc with
  | .fetched => if s.locked t.item.data then none else some (s.lock i t)
  | .enqueuing (pool :: pools) => some (s.enqueue i t pool pools)
  | .enqueuing [] =>
    if t.pool = .poolWorker then some (s.moveTask i t t.item.blocked .working)
    else some (s.unlock i t)
  | .writing .finished => some (s.unlock i t)
  | .working => if (s.conns t.item.data).pendingRequests = [] then some (s.unlock i t) else none
  | .returning => some (if t.finished then s.returnFinished i t else s.returnUnfinished i t)
  | .readding => some (s.readdItem i t)
  | .reading | .writing _ => none

/-- The responses that were appended between two states of a connection. -/
def newResponses (before after : ServerConnection) : List HttpResponse :=
  after.out.pendingResponses.drop before.out.pendingResponses.length

/-- The result of a read pass up to its calls of `CONN_ENQUEUE`: `n` bytes were read, the last of
them from the input `k`. -/
def readDone (i : ℕ) (t : Task) (outcome : SocketRead) (n k : ℕ) (pass : ReadPass) : Server :=
  let c := t.item.data
  { s.moveTask i t pass.blocked (.enqueuing pass.enqueued) with
    conns := Function.update s.conns c pass.conn
    kernel := s.kernel.consume (s.target c) n outcome
    input := Function.update s.input c k
    history := { s.history with
      calls := s.history.calls ++ [⟨c, .read, s.target c⟩]
      appended := Function.update s.history.appended c (s.history.appended c ++
        (newResponses (s.conns c) pass.conn).map fun response => ⟨k, response.resp.code⟩)
      causes := Function.update s.history.causes c (s.history.causes c ++
        pass.appended.map fun _ => k)
      requests := Function.update s.history.requests c
        (s.history.requests c ++ pass.appended) } }

/-- The `read` of a task and what `server_loop_read` does with its result. -/
def read (errorPage : Option Bytes) (i : ℕ) (t : Task) (outcome : SocketRead) (n k : ℕ) :
    Option Server :=
  if t.pc = .reading ∧ s.kernel.mayRead (s.target t.item.data) n outcome ∧
      s.input t.item.data ≤ k then
    (serverLoopRead errorPage (s.conns t.item.data) outcome).map (s.readDone i t outcome n k)
  else none

/-- The system calls of a step of a write pass on the descriptor of the connection. -/
def writeCalls (c : ℕ) (calls : List SysCall) : List Call :=
  calls.filterMap fun
    | .write _ _ => some ⟨c, .write, s.target c⟩
    | .close => some ⟨c, .close, s.target c⟩
    | .readFailed => none

/-- How many of the calls were writes that would have blocked. -/
def countBlocks (calls : List SysCall) : ℕ :=
  calls.countP fun
    | .write _ .wouldBlock => true
    | _ => false

/-- The state after a step of a write pass, which made the calls that it holds. -/
def written (i : ℕ) (t : Task) (pass : WritePass) : Server :=
  let c := t.item.data
  { s.moveTask i t pass.blocked (.writing pass.pc) with
    conns := Function.update s.conns c { s.conns c with out := pass.conn }
    kernel := if .close ∈ pass.calls then s.kernel.close (s.conns c).fd else s.kernel
    history := { s.history with
      calls := s.history.calls ++ s.writeCalls c pass.calls
      blocks := Function.update s.history.blocks c
        (s.history.blocks c + countBlocks pass.calls) } }

/-- The pass that a write task is in. -/
def writePass (t : Task) (pc : WritePc) : WritePass :=
  ⟨(s.conns t.item.data).out, t.item.blocked, pc, []⟩

/-- A step of the pass of a write task. A `write` on a number that is not open fails. -/
def write (i : ℕ) (t : Task) (env : WriteEnv) : Option Server :=
  match t.pc with
  | .writing pc =>
    if s.target t.item.data = none ∧ env.write ≠ .hardError then none
    else ((s.writePass t pc).step env).map (s.written i t)
  | _ => none

/-- What a worker appends: the result of `server_process_request`, or an error response for null. -/
def workerResponse (errorPage : Option Bytes) : Option HttpResponse → Option HttpResponse
  | some resp => some resp
  | none => do
    let resp ← httpResponseCreateBuiltin errorPage 500
      (some (ascii "Request did not complete successfully"))
    let headers ← httpHeaderListAdd resp.headers
      (httpHeaderNew headerConnection (ascii "Close")) false
    some { resp with headers }

/-- One request in `server_loop_worker`, with `processRequest` for `server_process_request`. -/
def serverLoopWorker (processRequest : ServerEnv → HttpRequest → Option (Option HttpResponse))
    (errorPage : Option Bytes) (env : ServerEnv) (conn : ServerConnection) :
    Option (ServerConnection × HttpResponse) :=
  match conn.pendingRequests with
  | [] => none
  | request :: pendingRequests =>
    ((processRequest env request).bind (workerResponse errorPage)).map fun response =>
      (({ conn with pendingRequests } : ServerConnection).appendResponse response, response)

/-- A worker has answered the first pending request. -/
def processed (i : ℕ) (t : Task) (conn : ServerConnection) (response : HttpResponse) : Server :=
  let c := t.item.data
  { s.moveTask i t t.item.blocked (.enqueuing [.poolWrite]) with
    conns := Function.update s.conns c conn
    history := { s.history with
      appended := Function.update s.history.appended c (s.history.appended c ++
        [⟨(s.history.causes c).headD 0, response.resp.code⟩])
      causes := Function.update s.history.causes c (s.history.causes c).tail
      answers := Function.update s.history.answers c (s.history.answers c ++ [response]) } }

/-- A worker answers the first pending request. -/
def process (processRequest : ServerEnv → HttpRequest → Option (Option HttpResponse))
    (errorPage : Option Bytes) (i : ℕ) (t : Task) (env : ServerEnv) : Option Server :=
  if t.pc = .working then
    (serverLoopWorker processRequest errorPage env (s.conns t.item.data)).map
      fun (conn, response) => s.processed i t conn response
  else none

/-- What `epoll_wait` reports. -/
inductive Report where
  /-- Connections wait at the listening socket. -/
  | listening
  /-- Something happened at the socket of a connection. -/
  | client (c : ℕ) (mask : EventMask)
  deriving DecidableEq, Repr

/-- A report is true: its socket is open, and bytes that wait are reported. -/
def mayReport : Report → Bool
  | .listening => true
  | .client c mask =>
    c ∈ s.clients ∧ s.target c = some (.socket c) ∧ (0 < s.kernel.unread c → mask.epollin = true)

/-- The event that a report becomes. -/
def event : Report → EpollEvent
  | .listening => .listening
  | .client c mask => .client c mask (s.history.blocks c)

/-- A report on the connection. -/
def Report.isOn (c : ℕ) : Report → Bool
  | .listening => false
  | .client d _ => d = c

/-- `epoll_wait` has returned. -/
def polled (reports : List Report) : Server :=
  { s with
    main := .handling (reports.map s.event)
    kernel := { s.kernel with inEdge := fun c => s.kernel.inEdge c && !reports.any (·.isOn c) } }

/-- `epoll_wait`. -/
def poll (reports : List Report) : Option Server :=
  if s.main = .polling ∧ reports.all s.mayReport then some (s.polled reports) else none

/-- The main loop goes on somewhere else. -/
def atMain (pc : MainPc) : Server := { s with main := pc }

/-- An event is dealt with. -/
def finishEvent (c : ℕ) (mask : EventMask) (blocks : ℕ) (events : List EpollEvent) : Server :=
  { s with
    main := .handling events
    history := if mask.epollout then
        { s.history with outHandled := Function.update s.history.outHandled c blocks }
      else s.history }

/-- `queue_unblock_byptr` on the read queue. -/
def unblock (c : ℕ) : Server :=
  { s with
    pools := Function.update s.pools .poolRead ((s.pools .poolRead).unblockByptr c).1 }

/-- The branches of `server_loop` for `EPOLLIN` and `EPOLLOUT` on a connection: the items in the
read queue are unblocked in both, and only if there are none one is added. -/
def unblockOr (pool : ServerPool) (c : ℕ) (mask : EventMask) (blocks : ℕ)
    (events : List EpollEvent) : Server :=
  if ((s.pools .poolRead).unblockByptr c).2 = 0 then
    (s.unblock c).atMain (.adding c pool mask blocks events)
  else (s.unblock c).finishEvent c mask blocks events

/-- The treatment of one event. It has no result where the assertion fails. -/
def handle (events : List EpollEvent) : EpollEvent → Option Server
  | .listening => some (s.atMain (.accepting events))
  | .client c mask blocks =>
    if c ∈ s.clients then
      if mask.hangsUp then some ((s.sktClose c).atMain (.handling events))
      else some (s.unblockOr mask.pool c mask blocks events)
    else none

/-- The test for an error in the loop over the clients. -/
def closeFailed (c : ℕ) : Server := if (s.conns c).out.error then s.sktClose c else s

/-- `queue_remove_byptr` on the queue of a pool. -/
def sweep (pool : ServerPool) (c : ℕ) : Server :=
  { s with pools := Function.update s.pools pool ((s.pools pool).removeByptr c).1 }

/-- `LL_DELETE` and `server_connection_delete`. -/
def deleteConnection (c : ℕ) : Server :=
  { s with
    clients := s.clients.erase c
    deleted := Function.update s.deleted c true }

/-- The steps of the main loop that depend on nothing outside. -/
def mainTick : Option Server :=
  match s.main with
  | .handling [] => some (s.atMain (.cleaning s.clients))
  | .handling (event :: events) => s.handle events event
  | .enlisted c events => some ((s.addItem .poolRead c).atMain (.accepting events))
  | .adding c pool mask blocks events =>
    some ((s.addItem pool c).finishEvent c mask blocks events)
  | .cleaning [] => some (s.atMain .polling)
  | .cleaning (c :: clients) => some ((s.closeFailed c).atMain (.tested c clients))
  | .tested c clients =>
    some (s.atMain (if (s.conns c).out.closed then .sweeping c allPools clients
      else .cleaning clients))
  | .sweeping c (pool :: pools) clients =>
    some ((s.sweep pool c).atMain (.sweeping c pools clients))
  | .sweeping c [] clients => some (s.atMain (.waiting c allPools clients))
  | .waiting c (pool :: pools) clients =>
    if (s.pools pool).pendingByptr c = none then
      some (s.atMain (.waiting c pools clients))
    else none
  | .waiting c [] clients => some ((s.deleteConnection c).atMain (.cleaning clients))
  | .polling | .accepting _ => none

/-- A socket is accepted under a free number and its connection made. -/
def acceptSocket (fd : ℕ) : Server :=
  { s with
    conns := Function.update s.conns s.accepted (.new fd)
    locked := Function.update s.locked s.accepted false
    deleted := Function.update s.deleted s.accepted false
    accepted := s.accepted + 1
    kernel := { s.kernel with
      fds := Function.update s.kernel.fds fd (some (.socket s.accepted))
      unread := Function.update s.kernel.unread s.accepted 0 }
    input := Function.update s.input s.accepted 0
    history := { s.history with
      appended := Function.update s.history.appended s.accepted []
      causes := Function.update s.history.causes s.accepted []
      requests := Function.update s.history.requests s.accepted []
      answers := Function.update s.history.answers s.accepted []
      blocks := Function.update s.history.blocks s.accepted 0
      outHandled := Function.update s.history.outHandled s.accepted 0 } }

/-- The socket is added to epoll, and its connection to the list of clients. -/
def enlist (fd : ℕ) (events : List EpollEvent) : Server :=
  { s.acceptSocket fd with
    clients := s.clients ++ [s.accepted]
    main := .enlisted s.accepted events }

/-- Adding the socket to epoll fails, and its connection is closed and deleted. -/
def turnAway (fd : ℕ) : Server :=
  { (s.acceptSocket fd).sktClose s.accepted with
    deleted := Function.update s.deleted s.accepted true }

/-- `server_socket_accept` returns a socket with a free number. -/
def accept (fd : ℕ) (added : Bool) : Option Server :=
  match s.main with
  | .accepting events =>
    if 0 < fd ∧ s.kernel.fds fd = none then
      some (if added then s.enlist fd events else s.turnAway fd)
    else none
  | _ => none

/-- `server_socket_accept` returns null. -/
def acceptNone : Option Server :=
  match s.main with
  | .accepting events => some (s.atMain (.handling events))
  | _ => none

/-- Bytes have arrived at the socket of a connection. -/
def arrived (c n : ℕ) : Server :=
  { s with kernel := { s.kernel with
    unread := Function.update s.kernel.unread c (s.kernel.unread c + n)
    inEdge := Function.update s.kernel.inEdge c true } }

/-- Bytes arrive at the open socket of a connection. -/
def arrive (c n : ℕ) : Option Server :=
  if s.target c = some (.socket c) ∧ 0 < n then some (s.arrived c n) else none

/-- A file has been opened under a number. -/
def opened (fd : ℕ) : Server :=
  { s with kernel := { s.kernel with fds := Function.update s.kernel.fds fd (some .file) } }

/-- A thread opens a file, which takes a free number. -/
def openFile (fd : ℕ) : Option Server := if s.kernel.fds fd = none then some (s.opened fd) else none

/-- A thread closes a file. -/
def closeFile (fd : ℕ) : Option Server :=
  if s.kernel.fds fd = some .file then some { s with kernel := s.kernel.close fd } else none

/-- The actions of the server, with what is decided outside of it. -/
inductive Action where
  /-- A thread of a pool fetches an item. -/
  | fetch (pool : ServerPool)
  /-- A task goes on. -/
  | tick (i : ℕ)
  /-- A task reads from its socket. -/
  | read (i : ℕ) (outcome : SocketRead) (n k : ℕ)
  /-- A task goes on with its write pass. -/
  | write (i : ℕ) (env : WriteEnv)
  /-- A task answers a request. -/
  | process (i : ℕ) (env : ServerEnv)
  /-- The main loop goes on. -/
  | main
  /-- `epoll_wait` returns. -/
  | poll (reports : List Report)
  /-- A connection is accepted. -/
  | accept (fd : ℕ) (added : Bool)
  /-- There is no connection to accept. -/
  | acceptNone
  /-- Bytes arrive. -/
  | arrive (c n : ℕ)
  /-- A file is opened. -/
  | openFile (fd : ℕ)
  /-- A file is closed. -/
  | closeFile (fd : ℕ)

/-- One step of the server. -/
def step (processRequest : ServerEnv → HttpRequest → Option (Option HttpResponse))
    (errorPage : Option Bytes) (s : Server) : Action → Option Server
  | .fetch pool => s.fetch pool
  | .tick i => (s.task i).bind (s.tick i)
  | .read i outcome n k => (s.task i).bind fun t => s.read errorPage i t outcome n k
  | .write i env => (s.task i).bind fun t => s.write i t env
  | .process i env => (s.task i).bind fun t => s.process processRequest errorPage i t env
  | .main => s.mainTick
  | .poll reports => s.poll reports
  | .accept fd added => s.accept fd added
  | .acceptNone => s.acceptNone
  | .arrive c n => s.arrive c n
  | .openFile fd => s.openFile fd
  | .closeFile fd => s.closeFile fd

end Server

/-- The server as a machine, with `processRequest` for `server_process_request`. -/
def machineWith (processRequest : ServerEnv → HttpRequest → Option (Option HttpResponse))
    (errorPage : Option Bytes) : Machine Server Server.Action :=
  ⟨.start, Server.step processRequest errorPage⟩

/-- `server_process_request` as a worker calls it. It always makes a response. -/
def processWith (config : ConfigServer) (env : ServerEnv) (request : HttpRequest) :
    Option (Option HttpResponse) :=
  (serverProcessRequest env config request).map fun answer => some answer.response

/-- The server as a machine. -/
def serverMachine (config : ConfigServer) (errorPage : Option Bytes) :
    Machine Server Server.Action := machineWith (processWith config) errorPage

end Khttp
