import Khttp.Lib.Machine
import Mathlib.Algebra.GroupWithZero.Nat
import Mathlib.Data.List.Infix
import Mathlib.Tactic.Common

/-!
# The size of a thread pool

The management thread of `thread-pool.c` starts the initial threads, then adds one,
marks the head of the list to stop, or does neither, once in each round, and joins
the threads that have ended. Threads end at any moment after they were marked, also
between two steps of the joining loop. Counts of type `size_t` are natural numbers;
the differences the loop compares are 64-bit words, as in the source.
-/

namespace Khttp

/-- `thread`, as its pool sees it. -/
structure PoolThread where
  /-- Read by the thread at the head of its loop. -/
  stop : Bool
  /-- Whether the thread has returned, so that it can be joined. -/
  exited : Bool
  deriving DecidableEq, Repr

/-- `thread_new`, started. -/
def PoolThread.new : PoolThread := ⟨false, false⟩

/-- `thread_pool`, without its name, its function and its queue. -/
structure ThreadPool where
  /-- Set by `thread_pool_stop`. -/
  shutdown : Bool
  /-- The threads, the one added last first. -/
  threads : List PoolThread
  /-- The number of threads, counted by hand. -/
  threadCount : ℕ
  /-- The number of threads started at first. -/
  minThreads : ℕ
  /-- The number of threads not to be exceeded. -/
  maxThreads : ℕ
  /-- How much the queue may grow for each thread. -/
  queueFactor : ℕ
  deriving DecidableEq, Repr

namespace ThreadPool

/-- `thread_pool_new`, with the bounds its owner sets before it is started. -/
def new (minThreads maxThreads queueFactor : ℕ) : ThreadPool :=
  ⟨false, [], 0, minThreads, maxThreads, queueFactor⟩

/-- `thread_pool_add_thread` of a new thread: `LL_PREPEND`, then the count. -/
def addThread (p : ThreadPool) : ThreadPool :=
  { p with threads := PoolThread.new :: p.threads, threadCount := p.threadCount + 1 }

/-- `thread_pool_remove_thread` of the thread at a place in the list. -/
def removeThread (p : ThreadPool) (index : ℕ) : ThreadPool :=
  { p with threads := p.threads.eraseIdx index, threadCount := p.threadCount - 1 }

/-- The loop that starts the initial threads, with the rounds it has left. -/
def startThreads : ℕ → ThreadPool → ThreadPool
  | 0, p => p
  | rounds + 1, p => startThreads rounds p.addThread

/-- `INT_MAX`. -/
def intMax : ℕ := 2 ^ 31 - 1

/-- `thread_pool_loop` up to its management loop. The counter of the first loop is an
`int`, which cannot count past `INT_MAX`: there the loop has no defined result. -/
def startUp (p : ThreadPool) : Option ThreadPool :=
  if p.minThreads ≤ intMax then
    let started := startThreads p.minThreads p
    if started.minThreads > started.maxThreads then
      some { started with maxThreads := started.minThreads }
    else some started
  else none

/-- `queue_count_diff`. -/
def queueCountDiff (queueSize lastQueueCount : BitVec 64) : BitVec 64 := queueSize - lastQueueCount

/-- `watermark`. -/
def watermark (p : ThreadPool) : BitVec 64 := BitVec.ofNat 64 (p.threadCount * p.queueFactor)

/-- The test for one thread more. -/
def grows (p : ThreadPool) (diff : BitVec 64) : Bool :=
  p.watermark.slt diff && decide (p.threadCount < p.maxThreads)

/-- The test for one thread less, made where the test for one more has failed. -/
def shrinks (p : ThreadPool) (diff : BitVec 64) : Bool :=
  p.watermark.slt (diff * -1) && decide (p.minThreads < p.threadCount)

/-- `pool->threads->stop = true`; there is no result where the pointer is `NULL`. -/
def markHead (p : ThreadPool) : Option ThreadPool :=
  match p.threads with
  | [] => none
  | head :: rest => some { p with threads := { head with stop := true } :: rest }

/-- The start-up loop prepends the threads it counts. -/
theorem startThreads_eq (rounds : ℕ) (p : ThreadPool) :
    startThreads rounds p =
      { p with
        threads := List.replicate rounds PoolThread.new ++ p.threads
        threadCount := p.threadCount + rounds } := by
  induction rounds generalizing p with
  | zero => rfl
  | succ rounds ih =>
    rw [startThreads, ih, List.replicate_succ']
    simp [addThread, Nat.add_assoc, Nat.add_comm 1]

/-- What holds of a pool under management: the count is the length and within bounds, and
the threads at the end of the list, as many as were started at first, are never marked. -/
structure Sized (minThreads maxThreads : ℕ) (p : ThreadPool) : Prop where
  /-- The lower bound is the one the pool was given. -/
  min_eq : p.minThreads = minThreads
  /-- The upper bound is the one the pool was given, raised to the lower one. -/
  max_eq : p.maxThreads = max maxThreads minThreads
  /-- The count is the length of the list. -/
  count_eq : p.threadCount = p.threads.length
  /-- The count is within the upper bound. -/
  count_le : p.threadCount ≤ p.maxThreads
  /-- The last threads have not been marked and have not ended. -/
  kept : ∃ front back, p.threads = front ++ back ∧ back.length = minThreads ∧
    ∀ th ∈ back, th.stop = false ∧ th.exited = false

/-- The start-up leaves a pool of its lower bound, or has no result. -/
theorem startUp_sized {minThreads maxThreads queueFactor : ℕ} {p : ThreadPool}
    (hstart : (new minThreads maxThreads queueFactor).startUp = some p) :
    p.Sized minThreads maxThreads := by
  simp only [startUp, startThreads_eq, Option.ite_none_right_eq_some] at hstart
  obtain ⟨-, hstart⟩ := hstart
  have hkept : ∃ front back, List.replicate minThreads PoolThread.new ++ [] = front ++ back ∧
      back.length = minThreads ∧ ∀ th ∈ back, th.stop = false ∧ th.exited = false := by
    refine ⟨[], List.replicate minThreads PoolThread.new, by simp, by simp, ?_⟩
    intro th hth
    obtain rfl := List.eq_of_mem_replicate hth
    exact ⟨rfl, rfl⟩
  split at hstart
  · next hraise =>
    obtain rfl := Option.some.inj hstart
    simp only [new] at hraise
    exact ⟨rfl, by simp only [new]; omega, by simp [new], by simp [new], hkept⟩
  · next hraise =>
    obtain rfl := Option.some.inj hstart
    simp only [new] at hraise
    exact ⟨rfl, by simp only [new]; omega, by simp [new], by simp only [new]; omega, hkept⟩

namespace Sized

variable {minThreads maxThreads : ℕ} {p : ThreadPool}

/-- The list reaches beyond its kept part where the count exceeds the lower bound. -/
theorem front_ne_nil (h : p.Sized minThreads maxThreads) (hmore : minThreads < p.threadCount) :
    ∃ head front back, p.threads = head :: front ++ back ∧ back.length = minThreads ∧
      ∀ th ∈ back, th.stop = false ∧ th.exited = false := by
  obtain ⟨front, back, hthreads, hlength, hback⟩ := h.kept
  have hcount := h.count_eq
  rw [hthreads, List.length_append] at hcount
  cases front with
  | nil =>
    simp only [List.length_nil] at hcount
    omega
  | cons head front => exact ⟨head, front, back, hthreads, hlength, hback⟩

/-- A thread that was marked stands before the kept ones. -/
theorem index_lt (h : p.Sized minThreads maxThreads) {index : ℕ} {th : PoolThread}
    (hth : p.threads[index]? = some th) (hmarked : th.stop = true ∨ th.exited = true) :
    ∃ front back, p.threads = front ++ back ∧ index < front.length ∧ back.length = minThreads ∧
      ∀ th ∈ back, th.stop = false ∧ th.exited = false := by
  obtain ⟨front, back, hthreads, hlength, hback⟩ := h.kept
  refine ⟨front, back, hthreads, ?_, hlength, hback⟩
  by_contra hge
  rw [hthreads, List.getElem?_append_right (by omega)] at hth
  have hclear := hback th (List.mem_of_getElem? hth)
  simp [hclear] at hmarked

/-- One thread more, within the upper bound. -/
theorem addThread (h : p.Sized minThreads maxThreads) (hroom : p.threadCount < p.maxThreads) :
    p.addThread.Sized minThreads maxThreads := by
  obtain ⟨front, back, hthreads, hlength, hback⟩ := h.kept
  refine ⟨h.min_eq, h.max_eq, ?_, hroom, ?_⟩
  · simp [ThreadPool.addThread, h.count_eq]
  · exact ⟨PoolThread.new :: front, back, by simp [ThreadPool.addThread, hthreads], hlength, hback⟩

/-- The head is there to be marked, and it is not one of the kept threads. -/
theorem markHead (h : p.Sized minThreads maxThreads) (hmore : minThreads < p.threadCount) :
    ∃ p', p.markHead = some p' ∧ p'.shutdown = p.shutdown ∧ p'.Sized minThreads maxThreads := by
  obtain ⟨head, front, back, hthreads, hlength, hback⟩ := h.front_ne_nil hmore
  have hcount := h.count_eq
  rw [hthreads] at hcount
  refine ⟨{ p with threads := { head with stop := true } :: (front ++ back) }, ?_, rfl,
    h.min_eq, h.max_eq, ?_, h.count_le, ?_⟩
  · simp [ThreadPool.markHead, hthreads]
  · simpa using hcount
  · exact ⟨{ head with stop := true } :: front, back, rfl, hlength, hback⟩

/-- A thread that has ended is taken out. -/
theorem removeThread (h : p.Sized minThreads maxThreads) {index : ℕ} {th : PoolThread}
    (hth : p.threads[index]? = some th) (hexited : th.exited = true) :
    (p.removeThread index).Sized minThreads maxThreads := by
  obtain ⟨front, back, hthreads, hindex, hlength, hback⟩ := h.index_lt hth (Or.inr hexited)
  have hcount := h.count_eq
  have hle := h.count_le
  rw [hthreads, List.length_append] at hcount
  refine ⟨h.min_eq, h.max_eq, ?_, ?_, front.eraseIdx index, back, ?_, hlength, hback⟩
  · simp only [ThreadPool.removeThread, hthreads, List.eraseIdx_append_of_lt_length hindex,
      List.length_append, List.length_eraseIdx_of_lt hindex]
    omega
  · simp only [ThreadPool.removeThread]
    omega
  · simp only [ThreadPool.removeThread, hthreads, List.eraseIdx_append_of_lt_length hindex]

/-- A marked thread ends. -/
theorem exit (h : p.Sized minThreads maxThreads) {index : ℕ} {th : PoolThread}
    (hth : p.threads[index]? = some th) (hstop : th.stop = true) :
    ({ p with threads := p.threads.set index { th with exited := true } } : ThreadPool).Sized
      minThreads maxThreads := by
  obtain ⟨front, back, hthreads, hindex, hlength, hback⟩ := h.index_lt hth (Or.inl hstop)
  refine ⟨h.min_eq, h.max_eq, by simpa using h.count_eq, h.count_le,
    front.set index { th with exited := true }, back, ?_, hlength, hback⟩
  simp only [hthreads, List.set_append_left _ _ hindex]

/-- As many threads as the lower bound says are not marked. -/
theorem le_unstopped (h : p.Sized minThreads maxThreads) :
    minThreads ≤ p.threads.countP (!·.stop) := by
  obtain ⟨front, back, hthreads, hlength, hback⟩ := h.kept
  have hall : back.countP (!·.stop) = back.length :=
    List.countP_eq_length.mpr fun th hth => by simp [hback th hth]
  rw [hthreads, List.countP_append]
  omega

end Sized

end ThreadPool

/-- Where the management thread stands. -/
inductive PoolPc where
  /-- Before the test of `pool->shutdown`. -/
  | loopHead
  /-- In the cleanup of a round, at a place in the list. -/
  | cleanup (index : ℕ)
  /-- Past the management loop. -/
  | ended
  deriving DecidableEq, Repr

/-- A pool under its management thread. -/
structure PoolManager where
  /-- The pool. -/
  pool : ThreadPool
  /-- `last_queue_count`. -/
  lastQueueCount : BitVec 64
  /-- Where the management thread stands. -/
  pc : PoolPc
  deriving DecidableEq

/-- What happens to a pool. -/
inductive PoolAction where
  /-- `thread_pool_stop` sets the flag. -/
  | stop
  /-- A round of the management loop up to its cleanup, with the queue's size. -/
  | manage (queueSize : BitVec 64)
  /-- One round of the cleanup loop. -/
  | join
  /-- A marked thread returns from its function. -/
  | exit (index : ℕ)
  deriving DecidableEq

namespace PoolManager

/-- The management thread before its first round. -/
def start (p : ThreadPool) : PoolManager := ⟨p, 0, .loopHead⟩

/-- A round of the management loop up to its cleanup. -/
def manage (m : PoolManager) (queueSize : BitVec 64) : Option PoolManager :=
  let diff := ThreadPool.queueCountDiff queueSize m.lastQueueCount
  if m.pool.grows diff then some ⟨m.pool.addThread, queueSize, .cleanup 0⟩
  else if m.pool.shrinks diff then
    m.pool.markHead.map fun p => ⟨p, queueSize, .cleanup 0⟩
  else some { m with pc := .cleanup 0 }

/-- The cleanup loop at a place in the list: a thread that has ended is taken out, so
that its successor takes its place; past the end the round is over. -/
def join (m : PoolManager) (index : ℕ) : PoolManager :=
  match m.pool.threads[index]? with
  | none => { m with pc := .loopHead }
  | some elem =>
    if elem.exited then { m with pool := m.pool.removeThread index }
    else { m with pc := .cleanup (index + 1) }

/-- The effect of an action, where it can happen. -/
def step (m : PoolManager) : PoolAction → Option PoolManager
  | .stop => some { m with pool := { m.pool with shutdown := true } }
  | .manage queueSize =>
    match m.pc with
    | .loopHead => if m.pool.shutdown then some { m with pc := .ended } else m.manage queueSize
    | _ => none
  | .join =>
    match m.pc with
    | .cleanup index => some (m.join index)
    | _ => none
  | .exit index =>
    match m.pool.threads[index]? with
    | some th =>
      if th.stop then
        some { m with pool :=
          { m.pool with threads := m.pool.threads.set index { th with exited := true } } }
      else none
    | none => none

/-- The management of a pool, from the end of its start-up on. -/
def machine (p : ThreadPool) : Lib.Machine PoolManager PoolAction where
  init := start p
  step := step

/-- The next round sets the stop flag of the head of the list. -/
def Marks (m : PoolManager) (queueSize : BitVec 64) : Prop :=
  let diff := ThreadPool.queueCountDiff queueSize m.lastQueueCount
  m.pc = .loopHead ∧ m.pool.shutdown = false ∧ m.pool.grows diff = false ∧
    m.pool.shrinks diff = true

/-- What the bounds of a pool promise of it at any moment. -/
structure SizeBounds (minThreads maxThreads : ℕ) (m : PoolManager) : Prop where
  /-- `thread_count` is the length of `pool->threads`. -/
  count_eq : m.pool.threadCount = m.pool.threads.length
  /-- It does not exceed the upper bound, raised to the lower one. -/
  count_le : m.pool.threadCount ≤ max maxThreads minThreads
  /-- The lower bound is reached by threads that are not to stop. -/
  unstopped : minThreads ≤ m.pool.threads.countP (!·.stop)
  /-- There is a head wherever the loop marks it, whatever the size of the queue. -/
  head : ∀ queueSize, m.Marks queueSize → m.pool.threads ≠ []

/-- A round of the management loop keeps the pool sized. -/
theorem manage_sized {minThreads maxThreads : ℕ} {m m' : PoolManager} {queueSize : BitVec 64}
    (h : m.pool.Sized minThreads maxThreads) (hmanage : m.manage queueSize = some m') :
    m'.pool.Sized minThreads maxThreads := by
  simp only [manage] at hmanage
  split at hmanage
  · next hgrows =>
    obtain rfl := Option.some.inj hmanage
    have hroom : m.pool.threadCount < m.pool.maxThreads := by
      simp only [ThreadPool.grows, Bool.and_eq_true, decide_eq_true_eq] at hgrows
      exact hgrows.2
    exact h.addThread hroom
  · split at hmanage
    · next hshrinks =>
      have hmore : minThreads < m.pool.threadCount := by
        simp only [ThreadPool.shrinks, Bool.and_eq_true, decide_eq_true_eq, h.min_eq] at hshrinks
        exact hshrinks.2
      obtain ⟨p, hmark, -, hp⟩ := h.markHead hmore
      rw [hmark] at hmanage
      obtain rfl := Option.some.inj hmanage
      exact hp
    · obtain rfl := Option.some.inj hmanage
      exact h

/-- A round of the cleanup keeps the pool sized. -/
theorem join_sized {minThreads maxThreads : ℕ} {m : PoolManager}
    (h : m.pool.Sized minThreads maxThreads) (index : ℕ) :
    (m.join index).pool.Sized minThreads maxThreads := by
  unfold join
  split
  · exact h
  · next elem helem =>
    split
    · next hexited => exact h.removeThread helem hexited
    · exact h

/-- Every action keeps the pool sized. -/
theorem step_sized {minThreads maxThreads : ℕ} {m m' : PoolManager} {a : PoolAction}
    (h : m.pool.Sized minThreads maxThreads) (hstep : m.step a = some m') :
    m'.pool.Sized minThreads maxThreads := by
  cases a with
  | stop =>
    simp only [step, Option.some.injEq] at hstep
    subst hstep
    exact ⟨h.min_eq, h.max_eq, h.count_eq, h.count_le, h.kept⟩
  | manage queueSize =>
    simp only [step] at hstep
    split at hstep
    · split at hstep
      · obtain rfl := Option.some.inj hstep
        exact h
      · exact manage_sized h hstep
    · simp at hstep
  | join =>
    simp only [step] at hstep
    split at hstep
    · obtain rfl := Option.some.inj hstep
      exact join_sized h _
    · simp at hstep
  | exit index =>
    simp only [step] at hstep
    split at hstep
    · next th hth =>
      split at hstep
      · next hstop =>
        obtain rfl := Option.some.inj hstep
        exact h.exit hth hstop
      · simp at hstep
    · simp at hstep

/-- A sized pool is within its bounds. -/
theorem sizeBounds_of_sized {minThreads maxThreads : ℕ} {m : PoolManager}
    (h : m.pool.Sized minThreads maxThreads) : m.SizeBounds minThreads maxThreads := by
  refine ⟨h.count_eq, h.max_eq ▸ h.count_le, h.le_unstopped, fun queueSize hmarks => ?_⟩
  obtain ⟨-, -, -, hshrinks⟩ := hmarks
  simp only [ThreadPool.shrinks, Bool.and_eq_true, decide_eq_true_eq, h.min_eq] at hshrinks
  obtain ⟨head, front, back, hthreads, -⟩ := h.front_ne_nil hshrinks.2
  simp [hthreads]

/-- From the end of its start-up on, a pool stays within its bounds, whatever sizes of the
queue the management loop sees and whenever the marked threads end. -/
theorem size_bounds {minThreads maxThreads queueFactor : ℕ} {p : ThreadPool}
    {actions : List PoolAction} {m : PoolManager}
    (hstart : (ThreadPool.new minThreads maxThreads queueFactor).startUp = some p)
    (hrun : (machine p).run actions = some m) : m.SizeBounds minThreads maxThreads :=
  sizeBounds_of_sized <| (machine p).invariant_of_step
    (I := fun m => m.pool.Sized minThreads maxThreads) (fun _ _ _ h hstep => step_sized h hstep)
    (ThreadPool.startUp_sized hstart) hrun

/-- A pool of one to two threads grows, marks its head, and joins it. -/
theorem size_bounds_one_two :
    SizeBounds 1 2 ⟨⟨false, [⟨false, false⟩], 1, 1, 2, 5⟩, 0, .cleanup 0⟩ :=
  size_bounds (p := ⟨false, [⟨false, false⟩], 1, 1, 2, 5⟩)
    (show (ThreadPool.new 1 2 5).startUp = _ from rfl)
    (show (machine _).run [.manage 20, .join, .join, .join, .manage 0, .exit 0, .join] = _ from rfl)

end PoolManager

end Khttp
