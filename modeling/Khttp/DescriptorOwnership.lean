import Khttp.ServerMoves

/-!
# Whose socket a system call acts on

`skt_close` leaves the number in `skt->fd` and the items of the connection in the queues.
A number that was closed may be given out again at once, so a later call on behalf of the
closed connection acts on what the number refers to by then. The calls of a run act on
their own sockets if and only if no call is made on a closed connection whose number is
in use again.
-/

namespace Khttp

open Lib

namespace Server

/-- A call acts on the socket of its connection, or on nothing: then it fails with `EBADF`. -/
def OwnsCall (call : Call) : Prop := ∀ d, call.target = some d → d = .socket call.conn

/-- No system call has acted on anything but the socket accepted for its connection. -/
def OwnsDescriptors (s : Server) : Prop := ∀ call ∈ s.history.calls, OwnsCall call

/-- The action makes a system call on the descriptor of the connection. -/
def CallsOn (s : Server) (c : ℕ) : Action → Prop
  | .read i _ _ _ => ∃ t, s.tasks[i]? = some t ∧ t.item.data = c
  | .write i env => ∃ t pc pass, s.tasks[i]? = some t ∧ t.item.data = c ∧ t.pc = .writing pc ∧
      (s.writePass t pc).step env = some pass ∧ s.writeCalls c pass.calls ≠ []
  | .main => (∃ mask blocks events, s.main = .handling (.client c mask blocks :: events) ∧
        mask.hangsUp = true) ∨
      ∃ clients, s.main = .cleaning (c :: clients) ∧ (s.conns c).out.error = true
  | _ => False

/-- Where the action makes a call on a closed connection, its number is not in use. -/
def KeepsOff (s : Server) (a : Action) : Prop :=
  ∀ c, s.CallsOn c a → (s.conns c).out.closed = true → s.target c = none

/-- The connections that do not count as closed are those whose number refers to their socket. -/
def OwnsOpen (s : Server) : Prop :=
  ∀ c, (s.conns c).out.closed = false ↔ s.target c = some (.socket c)

/-- What a step does to the descriptors. -/
inductive Touches (s : Server) (a : Action) (s' : Server) : Prop
  /-- Nothing. -/
  | nothing (hquiet : ∀ c, ¬s.CallsOn c a) (hfds : s'.kernel.fds = s.kernel.fds)
      (hsocket : ∀ d, (s'.conns d).socket = (s.conns d).socket)
      (hcalls : s'.history.calls = s.history.calls)
  /-- It reads or writes. -/
  | call (c : ℕ) (kind : CallKind) (hc : ∀ d, s.CallsOn d a ↔ d = c)
      (hfds : s'.kernel.fds = s.kernel.fds)
      (hsocket : ∀ d, (s'.conns d).socket = (s.conns d).socket)
      (hcalls : s'.history.calls = s.history.calls ++ [⟨c, kind, s.target c⟩])
  /-- It closes a connection. -/
  | close (c : ℕ) (hc : ∀ d, s.CallsOn d a ↔ d = c)
      (hfds : s'.kernel.fds = Function.update s.kernel.fds (s.conns c).fd none)
      (hsocket : ∀ d, (s'.conns d).socket =
        if d = c then ((s.conns c).fd, true) else (s.conns d).socket)
      (hcalls : s'.history.calls = s.history.calls ++ [⟨c, .close, s.target c⟩])
  /-- It accepts a connection. -/
  | accept (fd : ℕ) (hquiet : ∀ c, ¬s.CallsOn c a) (hfree : s.kernel.fds fd = none)
      (hfds : s'.kernel.fds = Function.update s.kernel.fds fd (some (.socket s.accepted)))
      (hsocket : ∀ d, (s'.conns d).socket =
        if d = s.accepted then (fd, false) else (s.conns d).socket)
      (hcalls : s'.history.calls = s.history.calls)
  /-- It accepts a connection and closes it. -/
  | turnAway (fd : ℕ) (hquiet : ∀ c, ¬s.CallsOn c a) (hfree : s.kernel.fds fd = none)
      (hfds : s'.kernel.fds = s.kernel.fds)
      (hsocket : ∀ d, (s'.conns d).socket =
        if d = s.accepted then (fd, true) else (s.conns d).socket)
      (hcalls : s'.history.calls =
        s.history.calls ++ [⟨s.accepted, .close, some (.socket s.accepted)⟩])
  /-- A thread opens or closes a file. -/
  | file (fd : ℕ) (before after : Option Descriptor) (hquiet : ∀ c, ¬s.CallsOn c a)
      (hbefore : s.kernel.fds fd = before ∧ ∀ c, before ≠ some (.socket c))
      (hafter : ∀ c, after ≠ some (.socket c))
      (hfds : s'.kernel.fds = Function.update s.kernel.fds fd after)
      (hsocket : ∀ d, (s'.conns d).socket = (s.conns d).socket)
      (hcalls : s'.history.calls = s.history.calls)

variable {processRequest : ServerEnv → HttpRequest → Option (Option HttpResponse)}
  {config : ConfigServer} {errorPage : Option Bytes} {s s' : Server} {a : Action}

/-- `close` frees the number. -/
theorem fds_close (k : Kernel) (fd : ℕ) :
    (k.close fd).fds = Function.update k.fds fd none := by
  unfold Kernel.close
  split
  · next hfree => rw [← hfree, Function.update_eq_self]
  · rfl
  · rfl

/-- Reading moves no number. -/
theorem fds_consume (k : Kernel) (target : Option Descriptor) (n : ℕ) (outcome : SocketRead) :
    (k.consume target n outcome).fds = k.fds := by
  unfold Kernel.consume
  split
  · split <;> rfl
  · rfl

/-- A connection that is replaced by one with the same socket. -/
theorem socket_update {conns : ℕ → ServerConnection} {c : ℕ} {conn : ServerConnection}
    {closed : Bool} (h : conn.socket = ((conns c).fd, closed)) (d : ℕ) :
    (Function.update conns c conn d).socket =
      if d = c then ((conns c).fd, closed) else (conns d).socket := by
  by_cases hd : d = c
  · subst hd
    simp [h]
  · simp [hd]

/-- A connection that is replaced by one with the same socket changes no socket. -/
theorem socket_update_self {conns : ℕ → ServerConnection} {c : ℕ} {conn : ServerConnection}
    (h : conn.socket = (conns c).socket) (d : ℕ) :
    (Function.update conns c conn d).socket = (conns d).socket := by
  by_cases hd : d = c
  · subst hd
    simp [h]
  · simp [hd]

/-- `skt_close` by an action that calls on this connection alone. -/
theorem touches_sktClose {c : ℕ} (hc : ∀ d, s.CallsOn d a ↔ d = c) (pc : MainPc) :
    s.Touches a ((s.sktClose c).atMain pc) :=
  .close c hc (fds_close _ _) (socket_update rfl) rfl

/-- The main loop calls on nothing where it neither handles a report nor looks for errors. -/
theorem not_callsOn_main (hhandling : ∀ c mask blocks events,
    s.main = .handling (.client c mask blocks :: events) → mask.hangsUp = false)
    (hcleaning : ∀ c clients, s.main = .cleaning (c :: clients) →
      (s.conns c).out.error = false) (c : ℕ) : ¬s.CallsOn c .main := by
  rintro (⟨mask, blocks, events, hmain, hmask⟩ | ⟨clients, hmain, herror⟩)
  · simp [hhandling _ _ _ _ hmain] at hmask
  · simp [hcleaning _ _ hmain] at herror

/-- A read pass touches the descriptor of its connection. -/
theorem touches_readDone {i : ℕ} {t : Task} {outcome : SocketRead} {n k : ℕ} {pass : ReadPass}
    (ht : s.tasks[i]? = some t)
    (hpass : serverLoopRead errorPage (s.conns t.item.data) outcome = some pass) :
    s.Touches (.read i outcome n k) (s.readDone i t outcome n k pass) := by
  apply Touches.call t.item.data .read
  · intro d
    constructor
    · rintro ⟨u, hu, rfl⟩
      rw [Option.some.inj (ht.symm.trans hu)]
    · rintro rfl
      exact ⟨t, ht, rfl⟩
  · exact fds_consume _ _ _ _
  · exact socket_update_self (readMove_of_serverLoopRead hpass).socket_eq
  · rfl

/-- A step of a write pass touches the descriptor of its connection at most. -/
theorem touches_written {i : ℕ} {t : Task} {env : WriteEnv} {pc : WritePc} {pass : WritePass}
    (ht : s.tasks[i]? = some t) (hpc : t.pc = .writing pc)
    (hpass : (s.writePass t pc).step env = some pass) :
    s.Touches (.write i env) (s.written i t pass) := by
  have hcalls (c : ℕ) : s.CallsOn c (.write i env) ↔
      c = t.item.data ∧ s.writeCalls c pass.calls ≠ [] := by
    constructor
    · rintro ⟨u, pc', pass', hu, rfl, hpc', hpass', hne⟩
      obtain rfl := Option.some.inj (ht.symm.trans hu)
      obtain rfl : pc = pc' := by simpa [hpc] using hpc'
      obtain rfl := Option.some.inj (hpass.symm.trans hpass')
      exact ⟨rfl, hne⟩
    · rintro ⟨rfl, hne⟩
      exact ⟨t, pc, pass, ht, rfl, hpc, hpass, hne⟩
  have hsocket (closed : Bool) (h : pass.conn.closed = closed) :
      ({ s.conns t.item.data with out := pass.conn } : ServerConnection).socket =
        ((s.conns t.item.data).fd, closed) := by rw [← h]; rfl
  cases WritePass.step_adds hpass with
  | nothing hnew hclosed =>
    have hnew : pass.calls = [] := hnew
    apply Touches.nothing
    · intro c hc
      exact ((hcalls c).mp hc).2 (by rw [hnew]; rfl)
    · simp [written, hnew]
    · exact socket_update_self (hsocket _ hclosed)
    · simp [written, hnew, writeCalls]
  | readFailed hnew hclosed =>
    have hnew : pass.calls = [.readFailed] := hnew
    apply Touches.nothing
    · intro c hc
      exact ((hcalls c).mp hc).2 (by rw [hnew]; rfl)
    · simp [written, hnew]
    · exact socket_update_self (hsocket _ hclosed)
    · simp [written, hnew, writeCalls]
  | write offered hnew hclosed =>
    have hnew : pass.calls = [.write offered env.write] := hnew
    apply Touches.call t.item.data .write
    · intro d
      rw [hcalls, hnew]
      simp [writeCalls]
    · simp [written, hnew]
    · exact socket_update_self (hsocket _ hclosed)
    · simp [written, hnew, writeCalls]
  | close hnew hclosed =>
    have hnew : pass.calls = [.close] := hnew
    apply Touches.close t.item.data
    · intro d
      rw [hcalls, hnew]
      simp [writeCalls]
    · simp [written, hnew, fds_close]
    · exact socket_update (hsocket _ hclosed)
    · simp [written, hnew, writeCalls]

/-- A worker does nothing to the socket. -/
theorem socket_serverLoopWorker {env : ServerEnv} {conn conn' : ServerConnection}
    {response : HttpResponse}
    (h : serverLoopWorker processRequest errorPage env conn = some (conn', response)) :
    conn'.socket = conn.socket := by
  unfold serverLoopWorker at h
  split at h
  · simp at h
  · obtain ⟨made, _, hmade⟩ := Option.map_eq_some_iff.mp h
    obtain ⟨rfl, _⟩ := Prod.mk.inj hmade
    rfl

/-- What every step does to the descriptors. -/
theorem touches_of_step (h : step processRequest errorPage s a = some s') : s.Touches a s' := by
  cases move_of_step h with
  | fetch | lock | enqueue | resume | unlock | returnFinished | returnUnfinished | readd | poll
  | acceptNone | arrive => exact .nothing (fun _ => id) rfl (fun _ => rfl) rfl
  | read ht _ _ _ hpass => exact touches_readDone ht hpass
  | write ht hpc _ hpass => exact touches_written ht hpc hpass
  | process ht _ hworker =>
    exact .nothing (fun _ => id) rfl (socket_update_self (socket_serverLoopWorker hworker)) rfl
  | startCleaning hmain | listen hmain | addFirst hmain | endCleaning hmain | startSweeping hmain
  | skip hmain | sweep hmain | startWaiting hmain | wait hmain | delete hmain =>
    exact .nothing (not_callsOn_main (by simp [hmain]) (by simp [hmain])) rfl (fun _ => rfl) rfl
  | hangUp hmain _ hmask =>
    apply touches_sktClose
    intro d
    constructor
    · rintro (⟨_, _, _, hmain', _⟩ | ⟨_, hmain', _⟩)
      · simp_all
      · simp [hmain] at hmain'
    · rintro rfl
      exact Or.inl ⟨_, _, _, hmain, hmask⟩
  | unblock hmain _ hmask =>
    have hquiet : ∀ c, ¬s.CallsOn c .main := by
      apply not_callsOn_main
      · intro c mask blocks events hmain'
        simp_all
      · simp [hmain]
    unfold unblockOr finishEvent
    repeat' split
    all_goals exact .nothing hquiet rfl (fun _ => rfl) rfl
  | addAnother hmain =>
    have hquiet := not_callsOn_main (s := s) (by simp [hmain]) (by simp [hmain])
    unfold finishEvent
    split
    all_goals exact .nothing hquiet rfl (fun _ => rfl) rfl
  | closeFailed hmain =>
    unfold closeFailed
    split
    · next herror =>
      apply touches_sktClose
      intro d
      constructor
      · rintro (⟨_, _, _, hmain', _⟩ | ⟨_, hmain', _⟩)
        · simp [hmain] at hmain'
        · simp_all
      · rintro rfl
        exact Or.inr ⟨_, hmain, herror⟩
    · next herror =>
      exact .nothing (not_callsOn_main (by simp [hmain]) (by simp_all)) rfl (fun _ => rfl) rfl
  | @accept fd events _ _ hfree =>
    refine .accept fd (fun _ => id) hfree rfl (fun d => ?_) rfl
    by_cases hd : d = s.accepted
    · subst hd
      simp [enlist, acceptSocket, ServerConnection.socket, ServerConnection.new]
    · simp [enlist, acceptSocket, hd]
  | @turnAway fd events _ _ hfree =>
    apply Touches.turnAway fd (fun _ => id) hfree
    · simp [turnAway, acceptSocket, sktClose, fds_close, ServerConnection.new, ← hfree]
    · intro d
      by_cases hd : d = s.accepted
      · subst hd
        simp [turnAway, acceptSocket, sktClose, ServerConnection.socket, ServerConnection.new]
      · simp [turnAway, acceptSocket, sktClose, hd]
    · simp [turnAway, acceptSocket, sktClose, target, ServerConnection.new]
  | @openFile fd hfree =>
    exact .file fd none (some .file) (fun _ => id) ⟨hfree, by simp⟩ (by simp) rfl (fun _ => rfl) rfl
  | @closeFile fd hfile =>
    exact .file fd (some .file) none (fun _ => id) ⟨hfile, by simp⟩ (by simp) (fds_close _ _)
      (fun _ => rfl) rfl

/-- The number and the mark of a connection whose socket is known. -/
theorem conn_of_socket {conn : ServerConnection} {fd : ℕ} {closed : Bool}
    (h : conn.socket = (fd, closed)) : conn.fd = fd ∧ conn.out.closed = closed :=
  Prod.mk.inj h

/-- Steps that keep off numbers in use again keep the numbers of open connections theirs. -/
theorem OwnsOpen.step (hs : s.OwnsOpen) (hgood : s.KeepsOff a) (h : s.Touches a s') :
    s'.OwnsOpen := by
  have hsame (d : ℕ) (hd : (s'.conns d).socket = (s.conns d).socket)
      (hfd : s'.kernel.fds (s.conns d).fd = s.kernel.fds (s.conns d).fd) :
      (s'.conns d).out.closed = false ↔ s'.target d = some (.socket d) := by
    obtain ⟨hnumber, hclosed⟩ := conn_of_socket hd
    rw [hclosed, hs d, target, target, hnumber, hfd]
  intro d
  cases h with
  | nothing _ hfds hsocket _ => exact hsame d (hsocket d) (congrFun hfds _)
  | call c kind _ hfds hsocket _ => exact hsame d (hsocket d) (congrFun hfds _)
  | close c hc hfds hsocket _ =>
    have hd := hsocket d
    by_cases hdc : d = c
    · subst hdc
      rw [if_pos rfl] at hd
      obtain ⟨hnumber, hclosed⟩ := conn_of_socket hd
      simp [hclosed, target, hnumber, hfds]
    · rw [if_neg hdc] at hd
      by_cases hfd : (s.conns d).fd = (s.conns c).fd
      · obtain ⟨hnumber, hclosed⟩ := conn_of_socket hd
        -- the number that is closed referred to `c` or to nothing, so it was not that of `d`
        have htarget : s.target d ≠ some (.socket d) := by
          unfold target
          rw [hfd]
          by_cases hopen : (s.conns c).out.closed = false
          · have hown : s.kernel.fds (s.conns c).fd = some (.socket c) := (hs c).mp hopen
            simp [hown, Ne.symm hdc]
          · have hnone : s.kernel.fds (s.conns c).fd = none :=
              hgood c ((hc c).mpr rfl) (by simpa using hopen)
            simp [hnone]
        have hold : ¬(s.conns d).out.closed = false := fun hopen => htarget ((hs d).mp hopen)
        simp [hclosed, hold, target, hnumber, hfds, hfd]
      · exact hsame d hd (by simp [hfds, hfd])
  | accept fd _ hfree hfds hsocket _ =>
    have hd := hsocket d
    by_cases hnew : d = s.accepted
    · subst hnew
      rw [if_pos rfl] at hd
      obtain ⟨hnumber, hclosed⟩ := conn_of_socket hd
      simp [hclosed, target, hnumber, hfds]
    · rw [if_neg hnew] at hd
      by_cases hfd : (s.conns d).fd = fd
      · obtain ⟨hnumber, hclosed⟩ := conn_of_socket hd
        have hold : ¬(s.conns d).out.closed = false := by
          rw [hs d, target, hfd, hfree]
          simp
        simp [hclosed, hold, target, hnumber, hfds, hfd, Ne.symm hnew]
      · exact hsame d hd (by simp [hfds, hfd])
  | turnAway fd _ hfree hfds hsocket _ =>
    have hd := hsocket d
    by_cases hnew : d = s.accepted
    · subst hnew
      rw [if_pos rfl] at hd
      obtain ⟨hnumber, hclosed⟩ := conn_of_socket hd
      simp [hclosed, target, hnumber, hfds, hfree]
    · rw [if_neg hnew] at hd
      exact hsame d hd (congrFun hfds _)
  | file fd before after _ hbefore hafter hfds hsocket _ =>
    obtain ⟨hnumber, hclosed⟩ := conn_of_socket (hsocket d)
    by_cases hfd : (s.conns d).fd = fd
    · have hold : ¬(s.conns d).out.closed = false := by
        rw [hs d, target, hfd, hbefore.1]
        exact hbefore.2 d
      simp [hclosed, hold, target, hnumber, hfds, hfd, hafter d]
    · exact hsame d (hsocket d) (by simp [hfds, hfd])

/-- Calls are only added to the history. -/
theorem calls_of_touches (h : s.Touches a s') : s.history.calls <+: s'.history.calls := by
  cases h with
  | nothing _ _ _ hcalls | accept _ _ _ _ _ hcalls | file _ _ _ _ _ _ _ _ hcalls => rw [hcalls]
  | call _ _ _ _ _ hcalls | close _ _ _ _ hcalls | turnAway _ _ _ _ _ hcalls =>
    rw [hcalls]
    exact List.prefix_append _ _

/-- A new call acts on its own socket if and only if the step keeps off numbers in use again. -/
theorem ownsCall_iff {c : ℕ} {kind : CallKind} (hs : s.OwnsOpen)
    (hc : ∀ d, s.CallsOn d a ↔ d = c) : OwnsCall ⟨c, kind, s.target c⟩ ↔ s.KeepsOff a := by
  constructor
  · intro hown d hd hclosed
    obtain rfl := (hc d).mp hd
    by_contra hused
    obtain ⟨e, he⟩ := Option.ne_none_iff_exists'.mp hused
    rw [hown e he, ← hs d, hclosed] at he
    simp at he
  · intro hgood d hd
    by_cases hopen : (s.conns c).out.closed = false
    · rw [(hs c).mp hopen] at hd
      exact (Option.some.inj hd).symm
    · have hnone := hgood c ((hc c).mpr rfl) (by simpa using hopen)
      simp [hnone] at hd

/-- A step keeps all calls on their own sockets if and only if it keeps off numbers in use
again. -/
theorem ownsDescriptors_step_iff (hs : s.OwnsOpen) (hown : s.OwnsDescriptors)
    (h : s.Touches a s') : s'.OwnsDescriptors ↔ s.KeepsOff a := by
  have hquietIff (hquiet : ∀ c, ¬s.CallsOn c a) (hcalls : s'.OwnsDescriptors) :
      s'.OwnsDescriptors ↔ s.KeepsOff a :=
    ⟨fun _ c hc => absurd hc (hquiet c), fun _ => hcalls⟩
  have hsnoc (call : Call) (hcalls : s'.history.calls = s.history.calls ++ [call]) :
      s'.OwnsDescriptors ↔ OwnsCall call := by
    unfold OwnsDescriptors
    rw [hcalls]
    constructor
    · intro hall
      exact hall call (by simp)
    · intro hcall other hother
      rcases List.mem_append.mp hother with hold | hnew
      · exact hown other hold
      · rwa [List.mem_singleton.mp hnew]
  cases h with
  | nothing hquiet _ _ hcalls | accept _ hquiet _ _ _ hcalls | file _ _ _ hquiet _ _ _ _ hcalls =>
    exact hquietIff hquiet (by rw [OwnsDescriptors, hcalls]; exact hown)
  | call c kind hc _ _ hcalls => rw [hsnoc _ hcalls, ownsCall_iff hs hc]
  | close c hc _ _ hcalls => rw [hsnoc _ hcalls, ownsCall_iff hs hc]
  | turnAway fd hquiet _ _ _ hcalls =>
    apply hquietIff hquiet
    rw [hsnoc _ hcalls]
    intro d hd
    exact (Option.some.inj hd).symm

/-- The calls of a run have all acted on their own sockets if and only if no step made a call
on a closed connection whose number was in use again. -/
theorem ownsDescriptors_iff {as : List Action}
    (hrun : (serverMachine config errorPage).run as = some s) :
    s.OwnsDescriptors ↔ (serverMachine config errorPage).Meets KeepsOff .start as := by
  refine (serverMachine config errorPage).meets_iff (I := OwnsOpen) ?_ ?_ ?_ ?_ ?_ hrun
  · intro s a t hs hgood hstep
    exact hs.step hgood (touches_of_step hstep)
  · intro s a t hs hown hstep
    exact ownsDescriptors_step_iff hs hown (touches_of_step hstep)
  · intro s a t hstep hown call hcall
    exact hown call ((calls_of_touches (touches_of_step hstep)).subset hcall)
  · intro c
    simp [Server.start, target]
  · intro call hcall
    simp [Server.start] at hcall

/-- A client connects and hangs up; its read item is fetched late. -/
def lateRead (added : List Action) : List Action :=
  [.poll [.listening], .main, .accept 5 true, .main, .acceptNone, .main, .main, .main, .main,
    .poll [.client 0 ⟨false, true, false, false⟩, .listening], .main, .main] ++ added ++
    [.fetch .poolRead, .tick 0]

/-- The late read fails, and acts on nothing: the number is not in use again. -/
theorem ownsDescriptors_lateRead : ∃ s,
    (serverMachine (configServerNew []) none).run (lateRead [] ++ [.read 0 .failed 0 0]) = some s ∧
      s.OwnsDescriptors ∧
      (serverMachine (configServerNew []) none).Meets KeepsOff .start
        (lateRead [] ++ [.read 0 .failed 0 0]) := by
  have hcalls : ((serverMachine (configServerNew []) none).run
      (lateRead [] ++ [.read 0 .failed 0 0])).map (·.history.calls) =
        some [⟨0, .close, some (.socket 0)⟩, ⟨0, .read, none⟩] := by decide +kernel
  obtain ⟨s, hrun, hs⟩ := Option.map_eq_some_iff.mp hcalls
  have hown : s.OwnsDescriptors := by
    intro call hcall d hd
    simp only [hs, List.mem_cons, List.not_mem_nil, or_false] at hcall
    rcases hcall with rfl | rfl
    · exact (Option.some.inj hd).symm
    · simp at hd
  exact ⟨s, hrun, hown, (ownsDescriptors_iff hrun).mp hown⟩

/-- Where the next client gets the number, the late read takes bytes from its socket. -/
theorem not_ownsDescriptors_lateRead : ∃ s,
    (serverMachine (configServerNew []) none).run (lateRead [.accept 5 true, .arrive 1 9] ++
      [.read 0 (.data ⟨[.messageBegin], false, true, []⟩) 9 1]) = some s ∧
      ¬s.OwnsDescriptors := by
  have hcalls : ((serverMachine (configServerNew []) none).run
      (lateRead [.accept 5 true, .arrive 1 9] ++
        [.read 0 (.data ⟨[.messageBegin], false, true, []⟩) 9 1])).map (·.history.calls) =
        some [⟨0, .close, some (.socket 0)⟩, ⟨0, .read, some (.socket 1)⟩] := by decide +kernel
  obtain ⟨s, hrun, hs⟩ := Option.map_eq_some_iff.mp hcalls
  refine ⟨s, hrun, fun hown => ?_⟩
  have hcall := hown ⟨0, .read, some (.socket 1)⟩ (by simp [hs]) _ rfl
  simp at hcall

end Server

end Khttp
