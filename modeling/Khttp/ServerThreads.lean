import Khttp.ServerMoves

/-!
# Threads, locks and queues of the running server

What holds in every state of the server: the names in use are those of accepted
connections, and the mutex of a connection is locked exactly while one thread is between
`CONN_LOCK` and `CONN_UNLOCK`. An item that a thread can fetch stays until it is fetched,
and a thread that holds an item stays until it acts itself.
-/

namespace Khttp

open Lib

/-- Replacing an element of a list changes a count by what the two elements count. -/
theorem countP_set_add {α : Type*} {p : α → Bool} {l : List α} {i : ℕ} {a : α}
    (h : l[i]? = some a) (b : α) :
    (l.set i b).countP p + (p a).toNat = l.countP p + (p b).toNat := by
  induction l generalizing i with
  | nil => simp at h
  | cons x l ih =>
    cases i with
    | zero =>
      obtain rfl : x = a := by simpa using h
      simp only [List.set_cons_zero, List.countP_cons]
      cases p x <;> cases p b <;> simp
    | succ i =>
      have hrest := ih (i := i) (by simpa using h)
      simp only [List.set_cons_succ, List.countP_cons]
      omega

/-- Taking an element out of a list lowers a count by what the element counts. -/
theorem countP_eraseIdx_add {α : Type*} {p : α → Bool} {l : List α} {i : ℕ} {a : α}
    (h : l[i]? = some a) : (l.eraseIdx i).countP p + (p a).toNat = l.countP p := by
  induction l generalizing i with
  | nil => simp at h
  | cons x l ih =>
    cases i with
    | zero =>
      obtain rfl : x = a := by simpa using h
      simp only [List.eraseIdx_cons_zero, List.countP_cons]
      cases p x <;> simp
    | succ i =>
      have hrest := ih (i := i) (by simpa using h)
      simp only [List.eraseIdx_cons_succ, List.countP_cons]
      omega

/-- Elements of a list that counts one at most have the same number. -/
theorem index_eq_of_countP_le_one {α : Type*} {p : α → Bool} {l : List α} {i j : ℕ} {a b : α}
    (hle : l.countP p ≤ 1) (hi : l[i]? = some a) (hj : l[j]? = some b) (ha : p a = true)
    (hb : p b = true) : i = j := by
  by_contra hne
  have hcount := countP_eraseIdx_add (p := p) hi
  rw [ha, Bool.toNat_true] at hcount
  have hmem : b ∈ l.eraseIdx i := List.mem_eraseIdx_iff_getElem?.mpr ⟨j, Ne.symm hne, hj⟩
  have hpos : 0 < (l.eraseIdx i).countP p := List.countP_pos_iff.mpr ⟨b, hmem, hb⟩
  omega

/-- The positions between `CONN_LOCK` and `CONN_UNLOCK`. -/
def TaskPc.critical : TaskPc → Bool
  | .fetched | .returning | .readding => false
  | .reading | .writing _ | .working | .enqueuing _ => true

/-- The thread has locked the connection. -/
def Task.holds (c : ℕ) (t : Task) : Bool := t.item.data = c && t.pc.critical

/-- The thread is about to add an item to the queue of a pool. -/
def Task.Adds (t : Task) (pool : ServerPool) : Prop :=
  (∃ pools, t.pc = .enqueuing (pool :: pools)) ∨ (t.pc = .readding ∧ t.pool = pool)

/-- The thread is at a position of its own pool. -/
def Task.Placed (t : Task) : Prop :=
  match t.pc with
  | .reading => t.pool = .poolRead
  | .writing _ => t.pool = .poolWrite
  | .working => t.pool = .poolWorker
  | .fetched | .enqueuing _ | .returning | .readding => True

/-- The connection that the main loop is about to add an item for. -/
def MainPc.adds : MainPc → Option ℕ
  | .enlisted c _ | .adding c _ _ _ _ => some c
  | _ => none

/-- The connection that the main loop is cleaning up. -/
def MainPc.cleans : MainPc → Option ℕ
  | .sweeping c _ _ | .waiting c _ _ => some c
  | _ => none

namespace Server

/-- The number of the task that acts. -/
def Action.task : Action → Option ℕ
  | .tick i | .read i _ _ _ | .write i _ | .process i _ => some i
  | _ => none

/-- The action is one of the main loop by itself. -/
def Action.isMain : Action → Bool
  | .main => true
  | _ => false

/-- The thread that reads bytes in the action, the bytes and their number. -/
def Action.receives : Action → Option (ℕ × ParserRun × ℕ)
  | .read i (.data run) n _ => some (i, run, n)
  | _ => none

variable {processRequest : ServerEnv → HttpRequest → Option (Option HttpResponse)}
  {errorPage : Option Bytes} {s s' : Server} {a : Action} {c : ℕ} {pool : ServerPool}

@[simp] theorem moveTask_tasks (s : Server) (i : ℕ) (t : Task) (blocked : Bool) (pc : TaskPc) :
    (s.moveTask i t blocked pc).tasks =
      s.tasks.set i { t with item := { t.item with blocked }, pc } := rfl

@[simp] theorem unblockOr_tasks (s : Server) (pool : ServerPool) (c : ℕ) (mask : EventMask)
    (blocks : ℕ) (events : List EpollEvent) :
    (s.unblockOr pool c mask blocks events).tasks = s.tasks := by
  unfold unblockOr
  split <;> rfl

@[simp] theorem unblockOr_pools (s : Server) (pool : ServerPool) (c : ℕ) (mask : EventMask)
    (blocks : ℕ) (events : List EpollEvent) :
    (s.unblockOr pool c mask blocks events).pools =
      Function.update s.pools .poolRead ((s.pools .poolRead).unblockByptr c).1 := by
  unfold unblockOr
  split <;> rfl

@[simp] theorem closeFailed_pools (s : Server) (c : ℕ) : (s.closeFailed c).pools = s.pools := by
  unfold closeFailed
  split <;> rfl

@[simp] theorem closeFailed_tasks (s : Server) (c : ℕ) : (s.closeFailed c).tasks = s.tasks := by
  unfold closeFailed
  split <;> rfl

/-- The thread that has moved, and the others. -/
theorem eq_or_getElem?_of_mem_moveTask {i : ℕ} {t u : Task} {blocked : Bool} {pc : TaskPc}
    (hu : u ∈ (s.moveTask i t blocked pc).tasks) :
    u = { t with item := { t.item with blocked }, pc } ∨ ∃ j, j ≠ i ∧ s.tasks[j]? = some u := by
  obtain ⟨j, hj⟩ := List.mem_iff_getElem?.mp hu
  rw [moveTask_tasks, List.getElem?_set] at hj
  split at hj
  · split at hj
    · exact Or.inl (Option.some.inj hj).symm
    · simp at hj
  · next hne => exact Or.inr ⟨j, Ne.symm hne, hj⟩

/-- Where the threads after a step come from. -/
inductive TaskOrigin (s : Server) (a : Action) (t : Task) : Prop
  /-- The thread did nothing. -/
  | kept {j : ℕ} (hj : s.tasks[j]? = some t) (hact : a.task ≠ some j)
  /-- The thread has just fetched its item. -/
  | fetched {pool : ServerPool} {queue : Queue ℕ} {item : QueueItem ℕ} (ha : a = .fetch pool)
      (hfetch : (s.pools pool).fetchone = (queue, some item)) (ht : t = ⟨pool, item, .fetched⟩)
  /-- The thread has acted. -/
  | acted {i : ℕ} {before : Task} (ha : a.task = some i) (hbefore : s.tasks[i]? = some before)
      (hpool : t.pool = before.pool) (hid : t.item.id = before.item.id)
      (hdata : t.item.data = before.item.data) (hgap : before.pc ≠ .readding)
      (hreturns : t.pc = .readding ∧ before.pc = .returning ∧ before.finished = false ∨
        t.pc ≠ .readding ∧ before.pc ≠ .returning)

/-- A thread where no thread acts. -/
theorem TaskOrigin.of_mem {t : Task} (ha : a.task = none) (ht : t ∈ s.tasks) :
    s.TaskOrigin a t := by
  obtain ⟨j, hj⟩ := List.mem_iff_getElem?.mp ht
  exact .kept hj (by simp [ha])

/-- The thread at a replaced position, and the others. -/
theorem TaskOrigin.of_mem_moveTask {i : ℕ} {before t : Task} {blocked : Bool} {pc : TaskPc}
    (ha : a.task = some i) (hbefore : s.tasks[i]? = some before) (hgap : before.pc ≠ .readding)
    (hreturns : pc = .readding ∧ before.pc = .returning ∧ before.finished = false ∨
      pc ≠ .readding ∧ before.pc ≠ .returning)
    (ht : t ∈ (s.moveTask i before blocked pc).tasks) : s.TaskOrigin a t := by
  rcases eq_or_getElem?_of_mem_moveTask ht with rfl | ⟨j, hne, hj⟩
  · exact .acted ha hbefore rfl rfl rfl hgap hreturns
  · exact .kept hj (by rw [ha]; exact fun heq => hne (Option.some.inj heq).symm)

/-- The threads that are left where one has gone. -/
theorem TaskOrigin.of_mem_eraseIdx {i : ℕ} {t : Task} (ha : a.task = some i)
    (ht : t ∈ s.tasks.eraseIdx i) : s.TaskOrigin a t := by
  obtain ⟨j, hne, hj⟩ := List.mem_eraseIdx_iff_getElem?.mp ht
  exact .kept hj (by rw [ha]; exact fun heq => hne (Option.some.inj heq).symm)

/-- Every thread after a step has one of these origins. -/
theorem taskOrigin_of_move (h : Move processRequest errorPage s a s') {t : Task}
    (ht : t ∈ s'.tasks) : s.TaskOrigin a t := by
  cases h with
  | @fetch pool queue item hfetch =>
    rcases List.mem_append.mp ht with hold | hnew
    · exact .of_mem rfl hold
    · exact .fetched rfl hfetch (List.mem_singleton.mp hnew)
  | @lock i before hbefore hpc _ =>
    refine .of_mem_moveTask rfl hbefore (by simp [hpc]) (Or.inr ⟨?_, by simp [hpc]⟩) ht
    cases before.pool <;> simp [entry]
  | unlock hbefore hpc =>
    refine .of_mem_moveTask rfl hbefore ?_ (Or.inr ⟨by simp, ?_⟩) ht
    · rcases hpc with ⟨hpc, _⟩ | hpc | ⟨hpc, _⟩ <;> simp [hpc]
    · rcases hpc with ⟨hpc, _⟩ | hpc | ⟨hpc, _⟩ <;> simp [hpc]
  | returnUnfinished hbefore hpc hfinished =>
    exact .of_mem_moveTask rfl hbefore (by simp [hpc]) (Or.inl ⟨rfl, hpc, hfinished⟩) ht
  | enqueue hbefore hpc | resume hbefore hpc _ | read hbefore hpc _ _ _ | write hbefore hpc _ _
  | process hbefore hpc _ =>
    exact .of_mem_moveTask rfl hbefore (by simp [hpc]) (Or.inr ⟨by simp, by simp [hpc]⟩) ht
  | returnFinished | readd => exact .of_mem_eraseIdx rfl ht
  | unblock => exact .of_mem rfl (by simpa using ht)
  | closeFailed => exact .of_mem rfl (by simpa [atMain] using ht)
  | addAnother => exact .of_mem rfl (by simpa [finishEvent, addItem] using ht)
  | _ => exact .of_mem rfl ht

/-- A thread that does not act keeps its item and its position. -/
theorem mem_tasks_of_move (h : Move processRequest errorPage s a s') {t : Task}
    (ht : t ∈ s.tasks) : t ∈ s'.tasks ∨ ∃ i, a.task = some i ∧ s.tasks[i]? = some t := by
  have hset {i : ℕ} {before : Task} (hbefore : s.tasks[i]? = some before) (after : Task)
      (ha : a.task = some i) :
      t ∈ s.tasks.set i after ∨ ∃ i, a.task = some i ∧ s.tasks[i]? = some t := by
    obtain ⟨j, hj⟩ := List.mem_iff_getElem?.mp ht
    by_cases hij : i = j
    · subst hij
      exact Or.inr ⟨i, ha, hj⟩
    · left
      exact List.mem_iff_getElem?.mpr ⟨j, by rwa [List.getElem?_set_ne hij]⟩
  have herase {i : ℕ} {before : Task} (hbefore : s.tasks[i]? = some before)
      (ha : a.task = some i) :
      t ∈ s.tasks.eraseIdx i ∨ ∃ i, a.task = some i ∧ s.tasks[i]? = some t := by
    obtain ⟨j, hj⟩ := List.mem_iff_getElem?.mp ht
    by_cases hij : j = i
    · subst hij
      exact Or.inr ⟨j, ha, hj⟩
    · exact Or.inl (List.mem_eraseIdx_iff_getElem?.mpr ⟨j, hij, hj⟩)
  cases h with
  | fetch => exact Or.inl (List.mem_append_left _ ht)
  | lock ht' _ _ | enqueue ht' _ | resume ht' _ _ | unlock ht' _ | returnUnfinished ht' _ _
  | read ht' _ _ _ _ | write ht' _ _ _ | process ht' _ _ => exact hset ht' _ rfl
  | returnFinished ht' _ _ | readd ht' _ => exact herase ht' rfl
  | unblock => exact Or.inl (by simpa using ht)
  | closeFailed => exact Or.inl (by simpa [atMain] using ht)
  | addAnother => exact Or.inl (by simpa [finishEvent, addItem] using ht)
  | _ => exact Or.inl ht

/-- The list of a pool after the queue of one pool has changed. -/
theorem list_update (pools : ServerPool → Queue ℕ) (changed pool : ServerPool) (queue : Queue ℕ) :
    (Function.update pools changed queue pool).list =
      if pool = changed then queue.list else (pools pool).list := by
  by_cases hpool : pool = changed
  · subst hpool
    simp
  · simp [hpool]

/-- A fetch takes its item out of the list and leaves the others. -/
theorem list_of_fetchone {queue rest : Queue ℕ} {item : QueueItem ℕ}
    (h : queue.fetchone = (rest, some item)) :
    item.blocked = false ∧ ∃ before after, queue.list = before ++ item :: after ∧
      rest.list = before ++ after ∧
        rest.processing = queue.processing ++ [⟨item.id, item.data⟩] := by
  obtain ⟨before, found, after, hlist, hblocked, hfound⟩ :=
    queue.fetchone_cases.resolve_left (by simp [h])
  rw [h] at hfound
  obtain ⟨rfl, hitem⟩ := Prod.mk.inj hfound
  obtain rfl := Option.some.inj hitem
  exact ⟨hblocked, before, after, hlist, rfl, rfl⟩

/-- Dropping a token leaves the lists as they are. -/
theorem dropToken_list (s : Server) (t : Task) (pool : ServerPool) :
    ((s.dropToken t).pools pool).list = (s.pools pool).list := by
  unfold dropToken
  rw [list_update]
  split
  · next hpool => rw [hpool, Queue.pendingRemove_list]
  · rfl

/-- What a step can make of the queue of a pool. -/
inductive QueueMove (s : Server) (a : Action) (pool : ServerPool) : Queue ℕ → Prop
  /-- It stays as it is. -/
  | same : QueueMove s a pool (s.pools pool)
  /-- An item is added: a new one, or the one of a thread. -/
  | add {item : QueueItem ℕ} (hitem : item.blocked = false ∨ ∃ t ∈ s.tasks, t.item = item) :
      QueueMove s a pool ((s.pools pool).add item)
  /-- An item is fetched. -/
  | fetchone : QueueMove s a pool (s.pools pool).fetchone.1
  /-- The main loop unblocks the items of a connection. -/
  | unblockByptr (ha : a = .main) (c : ℕ) : QueueMove s a pool ((s.pools pool).unblockByptr c).1
  /-- The main loop removes the items of a connection. -/
  | removeByptr (ha : a = .main) (c : ℕ) : QueueMove s a pool ((s.pools pool).removeByptr c).1
  /-- The token of an item is dropped. -/
  | pendingRemove (id : ℕ) : QueueMove s a pool ((s.pools pool).pendingRemove id)

/-- Every step makes one of these of the queue of a pool. -/
theorem queueMove_of_move (h : Move processRequest errorPage s a s') (pool : ServerPool) :
    s.QueueMove a pool (s'.pools pool) := by
  have hupdate {changed : ServerPool} {queue : Queue ℕ} (hqueue : s.QueueMove a changed queue) :
      s.QueueMove a pool (Function.update s.pools changed queue pool) := by
    by_cases hpool : pool = changed
    · subst hpool
      rwa [Function.update_self]
    · rw [Function.update_of_ne hpool]
      exact .same
  cases h with
  | @fetch changed queue item hfetch =>
    have hqueue : queue = (s.pools changed).fetchone.1 := by rw [hfetch]
    subst hqueue
    exact hupdate .fetchone
  | enqueue | addFirst | addAnother => exact hupdate (.add (Or.inl rfl))
  | readd ht => exact hupdate (.add (Or.inr ⟨_, List.mem_of_getElem? ht, rfl⟩))
  | returnFinished | returnUnfinished => exact hupdate (.pendingRemove _)
  | unblock =>
    rw [unblockOr_pools]
    exact hupdate (.unblockByptr rfl _)
  | closeFailed =>
    change s.QueueMove _ pool ((s.closeFailed _).pools pool)
    rw [closeFailed_pools]
    exact .same
  | sweep => exact hupdate (.removeByptr rfl _)
  | _ => exact .same

/-- Where the items of a queue after a step come from. -/
inductive ItemOrigin (s : Server) (a : Action) (pool : ServerPool) (item : QueueItem ℕ) : Prop
  /-- The item was there, possibly blocked. -/
  | kept {old : QueueItem ℕ} (hold : old ∈ (s.pools pool).list) (hid : item.id = old.id)
      (hdata : item.data = old.data)
  /-- The main loop has added it. -/
  | main (ha : a = .main) (hadds : s.main.adds = some item.data)
  /-- A thread has added it. -/
  | thread {i : ℕ} {t : Task} (ha : a.task = some i) (ht : s.tasks[i]? = some t)
      (hadds : t.Adds pool) (hdata : item.data = t.item.data)

/-- An item of a list that one item has been appended to. -/
theorem ItemOrigin.of_add {changed : ServerPool} {item new : QueueItem ℕ}
    (hnew : pool = changed → item = new → s.ItemOrigin a pool item)
    (hitem : item ∈ (Function.update s.pools changed ((s.pools changed).add new) pool).list) :
    s.ItemOrigin a pool item := by
  rw [list_update] at hitem
  split at hitem
  · next hpool =>
    rw [Queue.add_list] at hitem
    rcases List.mem_append.mp hitem with hold | hlast
    · exact .kept (hpool ▸ hold) rfl rfl
    · exact hnew hpool (List.mem_singleton.mp hlast)
  · exact .kept hitem rfl rfl

/-- Every item of a queue after a step has one of these origins. -/
theorem itemOrigin_of_move (h : Move processRequest errorPage s a s') {item : QueueItem ℕ}
    (hitem : item ∈ (s'.pools pool).list) : s.ItemOrigin a pool item := by
  cases h with
  | @fetch changed queue found hfetch =>
    obtain ⟨_, before, after, hlist, hrest, _⟩ := list_of_fetchone hfetch
    have hitem : item ∈ (Function.update s.pools changed queue pool).list := hitem
    rw [list_update] at hitem
    split at hitem
    · next hpool =>
      have hold : item ∈ (s.pools pool).list := by
        rw [hpool, hlist]
        rw [hrest] at hitem
        rcases List.mem_append.mp hitem with hfront | hback
        · exact List.mem_append_left _ hfront
        · exact List.mem_append_right _ (List.mem_cons_of_mem _ hback)
      exact .kept hold rfl rfl
    · exact .kept hitem rfl rfl
  | @enqueue i t changed pools ht hpc =>
    refine .of_add (fun hpool hnew => ?_) hitem
    subst hpool hnew
    exact .thread rfl ht (Or.inl ⟨pools, hpc⟩) rfl
  | @readd i t ht hpc =>
    refine .of_add (fun hpool hnew => ?_) hitem
    subst hpool hnew
    exact .thread rfl ht (Or.inr ⟨hpc, rfl⟩) rfl
  | addFirst hmain =>
    refine .of_add (fun _ hnew => ?_) hitem
    subst hnew
    exact .main rfl (by rw [hmain]; rfl)
  | addAnother hmain =>
    refine .of_add (fun _ hnew => ?_) hitem
    subst hnew
    exact .main rfl (by rw [hmain]; rfl)
  | @unblock c blocks mask events hmain hc hmask =>
    rw [unblockOr_pools, list_update] at hitem
    split at hitem
    · next hpool =>
      subst hpool
      obtain ⟨old, hold, rfl⟩ := List.mem_map.mp hitem
      refine .kept hold ?_ ?_ <;> split <;> rfl
    · exact .kept hitem rfl rfl
  | closeFailed =>
    have hitem : item ∈ ((s.closeFailed _).pools pool).list := hitem
    rw [closeFailed_pools] at hitem
    exact .kept hitem rfl rfl
  | @sweep c changed pools clients hmain =>
    have hitem : item ∈ (Function.update s.pools changed ((s.pools changed).removeByptr c).1
      pool).list := hitem
    rw [list_update] at hitem
    split at hitem
    · next hpool =>
      subst hpool
      exact .kept (List.mem_of_mem_filter hitem) rfl rfl
    · exact .kept hitem rfl rfl
  | returnFinished | returnUnfinished =>
    have hitem : item ∈ ((s.dropToken _).pools pool).list := hitem
    rw [dropToken_list] at hitem
    exact .kept hitem rfl rfl
  | _ => exact .kept hitem rfl rfl

/-- An item that a thread can fetch stays, is fetched, or is swept away. -/
theorem unblocked_of_move (h : Move processRequest errorPage s a s') {item : QueueItem ℕ}
    (hitem : item ∈ (s.pools pool).list) (hblocked : item.blocked = false) :
    item ∈ (s'.pools pool).list ∨ ⟨pool, item, .fetched⟩ ∈ s'.tasks ∨
      ∃ pools clients, s.main = .sweeping item.data (pool :: pools) clients := by
  have hadd (changed : ServerPool) (new : QueueItem ℕ) :
      item ∈ (Function.update s.pools changed ((s.pools changed).add new) pool).list := by
    rw [list_update]
    split
    · next hpool =>
      subst hpool
      simp [hitem]
    · exact hitem
  cases h with
  | @fetch changed queue found hfetch =>
    obtain ⟨_, before, after, hlist, hrest, _⟩ := list_of_fetchone hfetch
    by_cases hpool : pool = changed
    · subst hpool
      rw [hlist] at hitem
      by_cases hfound : item = found
      · subst hfound
        exact Or.inr (Or.inl (List.mem_append_right _ (List.mem_singleton.mpr rfl)))
      · left
        have hkept : item ∈ before ++ after := by simpa [hfound] using hitem
        simpa [fetched, hrest] using hkept
    · left
      simpa [fetched, hpool] using hitem
  | enqueue | readd | addFirst | addAnother => exact Or.inl (hadd _ _)
  | @unblock c blocks mask events hmain hc hmask =>
    left
    rw [unblockOr_pools, list_update]
    split
    · next hpool =>
      subst hpool
      refine List.mem_map.mpr ⟨item, hitem, ?_⟩
      split
      · rw [← hblocked]
      · rfl
    · exact hitem
  | closeFailed =>
    left
    change item ∈ ((s.closeFailed _).pools pool).list
    rwa [closeFailed_pools]
  | @sweep c changed pools clients hmain =>
    by_cases hswept : pool = changed ∧ item.data = c
    · obtain ⟨rfl, rfl⟩ := hswept
      exact Or.inr (Or.inr ⟨pools, clients, hmain⟩)
    · left
      change item ∈ (Function.update s.pools changed ((s.pools changed).removeByptr c).1 pool).list
      rw [list_update]
      split
      · next hpool =>
        subst hpool
        simpa [Queue.removeByptr, hitem] using hswept
      · exact hitem
  | returnFinished | returnUnfinished =>
    left
    change item ∈ ((s.dropToken _).pools pool).list
    rwa [dropToken_list]
  | _ => exact Or.inl hitem

/-- Threads of the same number are the same. -/
theorem eq_of_task_eq {i j : ℕ} {t u : Task} (hij : some i = some j) (hu : s.tasks[i]? = some u)
    (ht : s.tasks[j]? = some t) : u = t := by
  obtain rfl := Option.some.inj hij
  exact Option.some.inj (hu.symm.trans ht)

/-- A thread that has fetched an item can only lock its connection. -/
theorem lock_of_move (h : Move processRequest errorPage s a s') {i : ℕ} {t : Task}
    (ha : a.task = some i) (ht : s.tasks[i]? = some t) (hpc : t.pc = .fetched) :
    s' = s.lock i t := by
  cases h with
  | lock hu _ _ =>
    obtain rfl := eq_of_task_eq ha hu ht
    obtain rfl := Option.some.inj ha
    rfl
  | unlock hu hother =>
    obtain rfl := eq_of_task_eq ha hu ht
    simp [hpc] at hother
  | enqueue hu hother | resume hu hother _ | returnFinished hu hother _
  | returnUnfinished hu hother _ | readd hu hother | read hu hother _ _ _ | write hu hother _ _
  | process hu hother _ =>
    obtain rfl := eq_of_task_eq ha hu ht
    simp [hpc] at hother
  | _ => simp [Action.task] at ha

/-- A thread that is about to add items can only add the first of them. -/
theorem enqueue_of_move (h : Move processRequest errorPage s a s') {i : ℕ} {t : Task}
    (ha : a.task = some i) (ht : s.tasks[i]? = some t) {pool : ServerPool}
    {pools : List ServerPool} (hpc : t.pc = .enqueuing (pool :: pools)) :
    s' = s.enqueue i t pool pools := by
  cases h with
  | enqueue hu hother =>
    obtain rfl := eq_of_task_eq ha hu ht
    obtain rfl := Option.some.inj ha
    obtain ⟨rfl, rfl⟩ := List.cons.inj (TaskPc.enqueuing.inj (hother.symm.trans hpc))
    rfl
  | unlock hu hother =>
    obtain rfl := eq_of_task_eq ha hu ht
    simp [hpc] at hother
  | lock hu hother _ | resume hu hother _ | returnFinished hu hother _
  | returnUnfinished hu hother _ | readd hu hother | read hu hother _ _ _ | write hu hother _ _
  | process hu hother _ =>
    obtain rfl := eq_of_task_eq ha hu ht
    simp [hpc] at hother
  | _ => simp [Action.task] at ha

/-- A thread in a write pass can only go on with it, or unlock its connection behind it. -/
theorem write_of_move (h : Move processRequest errorPage s a s') {i : ℕ} {t : Task}
    (ha : a.task = some i) (ht : s.tasks[i]? = some t) {pc : WritePc} (hpc : t.pc = .writing pc) :
    pc = .finished ∨ ∃ env pass, a = .write i env ∧ s' = s.written i t pass ∧
      (s.writePass t pc).step env = some pass := by
  cases h with
  | write hu hother _ hpass =>
    obtain rfl := eq_of_task_eq ha hu ht
    obtain rfl := Option.some.inj ha
    obtain rfl := TaskPc.writing.inj (hother.symm.trans hpc)
    exact Or.inr ⟨_, _, rfl, rfl, hpass⟩
  | unlock hu hother =>
    obtain rfl := eq_of_task_eq ha hu ht
    left
    simpa [hpc] using hother
  | lock hu hother _ | enqueue hu hother | resume hu hother _ | returnFinished hu hother _
  | returnUnfinished hu hother _ | readd hu hother | read hu hother _ _ _ | process hu hother _ =>
    obtain rfl := eq_of_task_eq ha hu ht
    simp [hpc] at hother
  | _ => simp [Action.task] at ha

/-- A thread of the pool will go on with the connection: its queue has an item that can be
fetched, or a thread has fetched one and not yet locked the connection. -/
def Runnable (s : Server) (pool : ServerPool) (c : ℕ) : Prop :=
  (∃ item ∈ (s.pools pool).list, item.data = c ∧ item.blocked = false) ∨
    ∃ t ∈ s.tasks, t.pool = pool ∧ t.item.data = c ∧ t.pc = .fetched

/-- The item that a thread adds can be fetched. -/
theorem runnable_enqueue (s : Server) (i : ℕ) (t : Task) (pool : ServerPool)
    (pools : List ServerPool) : (s.enqueue i t pool pools).Runnable pool t.item.data :=
  Or.inl ⟨⟨s.nextItem, false, t.item.data⟩, by simp [enqueue, addItem, moveTask], rfl, rfl⟩

/-- A connection stays runnable until a thread of the pool locks it or it is swept away. -/
theorem Runnable.of_move (hs : s.Runnable pool c) (h : Move processRequest errorPage s a s') :
    s'.Runnable pool c ∨
      (∃ i t, s.tasks[i]? = some t ∧ t.pool = pool ∧ t.item.data = c ∧ s' = s.lock i t) ∨
      ∃ pools clients, s.main = .sweeping c (pool :: pools) clients := by
  rcases hs with ⟨item, hitem, rfl, hblocked⟩ | ⟨t, ht, hpool, hc, hpc⟩
  · rcases unblocked_of_move h hitem hblocked with hstays | hfetched | hswept
    · exact Or.inl (Or.inl ⟨item, hstays, rfl, hblocked⟩)
    · exact Or.inl (Or.inr ⟨_, hfetched, rfl, rfl, rfl⟩)
    · exact Or.inr (Or.inr hswept)
  · rcases mem_tasks_of_move h ht with hstays | ⟨i, hi, hit⟩
    · exact Or.inl (Or.inr ⟨t, hstays, hpool, hc, hpc⟩)
    · right
      left
      exact ⟨i, t, hit, hpool, hc, lock_of_move h hi hit hpc⟩

/-- A worker makes the response of the request. -/
def Answers (processRequest : ServerEnv → HttpRequest → Option (Option HttpResponse))
    (errorPage : Option Bytes) (request : HttpRequest) (response : HttpResponse) : Prop :=
  ∃ env, (processRequest env request).bind (workerResponse errorPage) = some response

/-- A thread that has locked its connection is at the entry of its pool. -/
theorem exists_locked {i : ℕ} {t : Task} (ht : s.tasks[i]? = some t) :
    ∃ u ∈ (s.lock i t).tasks, u.pool = t.pool ∧ u.item.data = t.item.data ∧
      u.pc = entry t.pool :=
  ⟨_, List.mem_set (List.getElem?_eq_some_iff.mp ht).1 _, rfl, rfl, rfl⟩

/-- What a worker does to the pending requests. -/
theorem serverLoopWorker_cases {env : ServerEnv} {conn conn' : ServerConnection}
    {response : HttpResponse}
    (h : serverLoopWorker processRequest errorPage env conn = some (conn', response)) :
    ∃ request pending, conn.pendingRequests = request :: pending ∧
      conn' =
        ({ conn with pendingRequests := pending } : ServerConnection).appendResponse response ∧
      Answers processRequest errorPage request response := by
  unfold serverLoopWorker at h
  split at h
  · simp at h
  · next request pending hpending =>
    obtain ⟨made, hmade, hpair⟩ := Option.map_eq_some_iff.mp h
    obtain ⟨rfl, rfl⟩ := Prod.mk.inj hpair
    exact ⟨request, pending, hpending, rfl, env, hmade⟩

/-- What a step does to a connection. -/
inductive ConnMove (processRequest : ServerEnv → HttpRequest → Option (Option HttpResponse))
    (errorPage : Option Bytes) (s : Server) (c : ℕ) : Action → ServerConnection → Prop
  /-- Nothing. -/
  | same {a : Action} : ConnMove processRequest errorPage s c a (s.conns c)
  /-- The main loop closes it. -/
  | closed {a : Action} :
      ConnMove processRequest errorPage s c a { s.conns c with out.closed := true }
  /-- It is new. -/
  | accepted {fd : ℕ} {added : Bool} (hc : c = s.accepted) :
      ConnMove processRequest errorPage s c (.accept fd added)
        { ServerConnection.new fd with out.closed := !added }
  /-- A read pass. -/
  | read {i n k : ℕ} {t : Task} {outcome : SocketRead} {pass : ReadPass}
      (ht : s.tasks[i]? = some t) (hpc : t.pc = .reading) (hdata : t.item.data = c)
      (hmay : s.kernel.mayRead (s.target c) n outcome = true)
      (hpass : serverLoopRead errorPage (s.conns c) outcome = some pass) :
      ConnMove processRequest errorPage s c (.read i outcome n k) pass.conn
  /-- A step of a write pass. -/
  | write {i : ℕ} {t : Task} {env : WriteEnv} {pc : WritePc} {pass : WritePass}
      (ht : s.tasks[i]? = some t) (hpc : t.pc = .writing pc) (hdata : t.item.data = c)
      (hpass : (s.writePass t pc).step env = some pass) :
      ConnMove processRequest errorPage s c (.write i env) { s.conns c with out := pass.conn }
  /-- A worker answers a request. -/
  | process {i : ℕ} {t : Task} {env : ServerEnv} {conn : ServerConnection}
      {response : HttpResponse} (ht : s.tasks[i]? = some t) (hpc : t.pc = .working)
      (hdata : t.item.data = c)
      (hworker : serverLoopWorker processRequest errorPage env (s.conns c) =
        some (conn, response)) :
      ConnMove processRequest errorPage s c (.process i env) conn

/-- What the main loop does to a connection where it closes one. -/
theorem connMove_sktClose (d : ℕ) :
    ConnMove processRequest errorPage s c a ((s.sktClose d).conns c) := by
  change ConnMove processRequest errorPage s c a
    (Function.update s.conns d { s.conns d with out.closed := true } c)
  by_cases hc : c = d
  · subst hc
    rw [Function.update_self]
    exact .closed
  · rw [Function.update_of_ne hc]
    exact .same

/-- A step does one of these things to each connection. -/
theorem connMove_of_move (h : Move processRequest errorPage s a s') (c : ℕ) :
    ConnMove processRequest errorPage s c a (s'.conns c) := by
  have hother {d : ℕ} {conn : ServerConnection} (hc : c ≠ d) :
      ConnMove processRequest errorPage s c a (Function.update s.conns d conn c) := by
    rw [Function.update_of_ne hc]
    exact .same
  cases h with
  | @read i t outcome n k pass ht hpc hmay hinput hpass =>
    by_cases hc : c = t.item.data
    · subst hc
      simpa [readDone] using ConnMove.read ht hpc rfl hmay hpass
    · exact hother hc
  | @write i t env pc pass ht hpc hopen hpass =>
    by_cases hc : c = t.item.data
    · subst hc
      simpa [written] using ConnMove.write ht hpc rfl hpass
    · exact hother hc
  | @process i t env conn response ht hpc hworker =>
    by_cases hc : c = t.item.data
    · subst hc
      simpa [processed] using ConnMove.process ht hpc rfl hworker
    · exact hother hc
  | @hangUp d => exact connMove_sktClose d
  | unblock =>
    unfold unblockOr
    split <;> exact .same
  | @closeFailed d =>
    change ConnMove processRequest errorPage s c .main ((s.closeFailed d).conns c)
    unfold closeFailed
    split
    · exact connMove_sktClose d
    · exact .same
  | @accept fd events =>
    by_cases hc : c = s.accepted
    · have hconn : (s.enlist fd events).conns c =
          { ServerConnection.new fd with out.closed := !true } := by
        rw [hc]
        exact Function.update_self _ _ _
      rw [hconn]
      exact .accepted hc
    · exact hother hc
  | @turnAway fd =>
    by_cases hc : c = s.accepted
    · have hconn : (s.turnAway fd).conns c =
          { ServerConnection.new fd with out.closed := !false } := by
        rw [hc]
        change Function.update _ _ _ _ = _
        simp [acceptSocket]
      rw [hconn]
      exact .accepted hc
    · have hconn : (s.turnAway fd).conns c = s.conns c := by
        simp [turnAway, sktClose, acceptSocket, hc]
      rw [hconn]
      exact .same
  | _ => exact .same

/-- A connection stays closed, unless its name is given out. -/
theorem ConnMove.closed_or {conn : ServerConnection}
    (h : ConnMove processRequest errorPage s c a conn) (hs : (s.conns c).out.closed = true) :
    conn.out.closed = true ∨ c = s.accepted ∧ ∃ fd added, a = .accept fd added := by
  cases h with
  | same => exact Or.inl hs
  | closed => exact Or.inl rfl
  | accepted hc => exact Or.inr ⟨hc, _, _, rfl⟩
  | read _ _ _ _ hpass =>
    have hsocket := (readMove_of_serverLoopRead hpass).socket_eq
    exact Or.inl ((Prod.mk.inj hsocket).2.trans hs)
  | write _ _ hdata hpass =>
    left
    have hs : (s.conns _).out.closed = true := hdata ▸ hs
    cases WritePass.step_adds hpass with
    | nothing _ hclosed | readFailed _ hclosed | write _ _ hclosed => exact hclosed.trans hs
    | close _ hclosed => exact hclosed
  | process _ _ _ hworker =>
    obtain ⟨request, pending, _, rfl, _⟩ := serverLoopWorker_cases hworker
    exact Or.inl hs

/-- A connection keeps its error, unless its name is given out. -/
theorem ConnMove.error_or {conn : ServerConnection}
    (h : ConnMove processRequest errorPage s c a conn) (hs : (s.conns c).out.error = true) :
    conn.out.error = true ∨ c = s.accepted ∧ ∃ fd added, a = .accept fd added := by
  cases h with
  | same | closed => exact Or.inl hs
  | accepted hc => exact Or.inr ⟨hc, _, _, rfl⟩
  | read _ _ _ _ hpass => exact Or.inl ((readMove_of_serverLoopRead hpass).error_eq hs)
  | write _ _ hdata hpass =>
    have hs : (s.conns _).out.error = true := hdata ▸ hs
    exact Or.inl (WritePass.step_error hpass hs)
  | process _ _ _ hworker =>
    obtain ⟨request, pending, _, rfl, _⟩ := serverLoopWorker_cases hworker
    exact Or.inl hs

/-- A connection keeps its number, unless its name is given out. -/
theorem ConnMove.fd_or {conn : ServerConnection}
    (h : ConnMove processRequest errorPage s c a conn) :
    conn.fd = (s.conns c).fd ∨ c = s.accepted ∧ ∃ fd added, a = .accept fd added := by
  cases h with
  | same | closed | write => exact Or.inl rfl
  | accepted hc => exact Or.inr ⟨hc, _, _, rfl⟩
  | read _ _ _ _ hpass =>
    exact Or.inl (Prod.mk.inj (readMove_of_serverLoopRead hpass).socket_eq).1
  | process _ _ _ hworker =>
    obtain ⟨request, pending, _, rfl, _⟩ := serverLoopWorker_cases hworker
    exact Or.inl rfl

/-- A connection that is open and has no error was so before, unless it is new. -/
theorem ConnMove.sound_before {conn : ServerConnection}
    (h : ConnMove processRequest errorPage s c a conn)
    (hnew : ¬(c = s.accepted ∧ ∃ fd added, a = .accept fd added))
    (hopen : conn.out.closed = false) (hnoError : conn.out.error = false) :
    (s.conns c).out.closed = false ∧ (s.conns c).out.error = false := by
  constructor
  · by_contra hclosed
    have hstays := (h.closed_or (by simpa using hclosed)).resolve_right hnew
    simp [hopen] at hstays
  · by_contra herror
    have hstays := (h.error_or (by simpa using herror)).resolve_right hnew
    simp [hnoError] at hstays

/-- Only closed connections are cleaned up. -/
def CleansClosed (s : Server) : Prop :=
  ∀ c, s.main.cleans = some c → (s.conns c).out.closed = true

/-- Every step cleans up closed connections only. -/
theorem CleansClosed.of_move (hs : s.CleansClosed) (h : Move processRequest errorPage s a s') :
    s'.CleansClosed := by
  intro c hc
  have hkept (hmain : s'.main = s.main) (ha : ∀ fd added, a ≠ .accept fd added) :
      (s'.conns c).out.closed = true := by
    have hbefore := hs c (hmain ▸ hc)
    refine ((connMove_of_move h c).closed_or hbefore).resolve_right ?_
    rintro ⟨_, fd, added, rfl⟩
    exact ha fd added rfl
  cases h with
  | read | write | process => exact hkept rfl (by simp)
  | startSweeping _ hclosed =>
    obtain rfl := Option.some.inj hc
    exact hclosed
  | sweep hmain | startWaiting hmain | wait hmain => exact hs c (by rw [hmain]; exact hc)
  | unblock =>
    unfold unblockOr at hc
    split at hc <;> simp [atMain, finishEvent, MainPc.cleans] at hc
  | startCleaning | listen | hangUp | addFirst | addAnother | endCleaning | closeFailed | skip
  | delete | poll | accept | acceptNone =>
    simp [atMain, finishEvent, polled, enlist, MainPc.cleans] at hc
  | turnAway hmain =>
    have hmain : s.main.cleans = some c := hc
    simp_all [MainPc.cleans]
  | _ => exact hs c hc

/-- Only names of accepted connections are in use. -/
structure Named (s : Server) : Prop where
  /-- By the items that threads hold. -/
  tasks : ∀ t ∈ s.tasks, t.item.data < s.accepted
  /-- By the items of the queues. -/
  items : ∀ pool, ∀ item ∈ (s.pools pool).list, item.data < s.accepted
  /-- In the list of clients. -/
  clients : ∀ c ∈ s.clients, c < s.accepted
  /-- By the main loop, which adds items for clients. -/
  main : ∀ c, s.main.adds = some c → c ∈ s.clients

/-- No name is given back. -/
theorem accepted_le_of_move (h : Move processRequest errorPage s a s') :
    s.accepted ≤ s'.accepted := by
  cases h with
  | unblock =>
    unfold unblockOr
    split <;> exact le_rfl
  | closeFailed =>
    unfold closeFailed atMain
    split <;> exact le_rfl
  | accept | turnAway => exact Nat.le_succ _
  | _ => exact le_rfl

/-- Where the clients after a step come from. -/
theorem clients_of_move (h : Move processRequest errorPage s a s') :
    s'.clients = s.clients ∨ s'.clients = s.clients ++ [s.accepted] ∧ s'.accepted = s.accepted + 1 ∨
      ∃ c clients, s.main = .waiting c [] clients ∧ s'.clients = s.clients.erase c := by
  cases h with
  | unblock =>
    left
    unfold unblockOr
    split <;> rfl
  | closeFailed =>
    left
    unfold closeFailed atMain
    split <;> rfl
  | accept => exact Or.inr (Or.inl ⟨rfl, rfl⟩)
  | delete hmain => exact Or.inr (Or.inr ⟨_, _, hmain, rfl⟩)
  | _ => exact Or.inl rfl

/-- The main loop adds items for clients only. -/
theorem adds_of_move (hs : ∀ c, s.main.adds = some c → c ∈ s.clients)
    (h : Move processRequest errorPage s a s') (c : ℕ) (hc : s'.main.adds = some c) :
    c ∈ s'.clients := by
  cases h with
  | unblock _ hclient _ =>
    unfold unblockOr at hc ⊢
    split at hc
    · next hnone =>
      rw [if_pos hnone]
      obtain rfl : _ = c := Option.some.inj hc
      exact hclient
    · simp [finishEvent, MainPc.adds] at hc
  | accept =>
    obtain rfl : _ = c := Option.some.inj hc
    exact List.mem_append_right _ (List.mem_singleton.mpr rfl)
  | startCleaning | listen | hangUp | addFirst | addAnother | endCleaning | closeFailed
  | startSweeping | skip | sweep | startWaiting | wait | delete | poll | acceptNone =>
    simp [atMain, finishEvent, polled, MainPc.adds] at hc
  | _ => exact hs c hc

/-- Every step keeps to names in use. -/
theorem Named.of_move (hs : s.Named) (h : Move processRequest errorPage s a s') : s'.Named := by
  have hle := accepted_le_of_move h
  refine ⟨fun t ht => ?_, fun pool item hitem => ?_, fun c hc => ?_, adds_of_move hs.main h⟩
  · refine lt_of_lt_of_le ?_ hle
    cases taskOrigin_of_move h ht with
    | kept hj _ => exact hs.tasks t (List.mem_of_getElem? hj)
    | @fetched pool queue item _ hfetch ht =>
      obtain ⟨_, before, after, hlist, _⟩ := list_of_fetchone hfetch
      exact ht ▸ hs.items pool item (by simp [hlist])
    | acted _ hbefore _ _ hdata _ _ => exact hdata ▸ hs.tasks _ (List.mem_of_getElem? hbefore)
  · refine lt_of_lt_of_le ?_ hle
    cases itemOrigin_of_move h hitem with
    | kept hold _ hdata => exact hdata ▸ hs.items _ _ hold
    | main _ hadds => exact hs.clients _ (hs.main _ hadds)
    | thread _ ht _ hdata => exact hdata ▸ hs.tasks _ (List.mem_of_getElem? ht)
  · rcases clients_of_move h with hsame | ⟨hnew, haccepted⟩ | ⟨d, clients, _, hdeleted⟩
    · exact lt_of_lt_of_le (hs.clients c (hsame ▸ hc)) hle
    · rw [hnew] at hc
      rcases List.mem_append.mp hc with hold | hlast
      · exact lt_of_lt_of_le (hs.clients c hold) hle
      · obtain rfl := List.mem_singleton.mp hlast
        omega
    · rw [hdeleted] at hc
      exact lt_of_lt_of_le (hs.clients c (List.mem_of_mem_erase hc)) hle

/-- The server starts without names. -/
theorem named_of_start : Named .start := by
  refine ⟨?_, ?_, ?_, ?_⟩ <;> simp [Server.start, Queue.new, MainPc.adds]

/-- A thread that moves to a position of its pool. -/
theorem placed_of_moveTask (hs : ∀ t ∈ s.tasks, t.Placed) {i : ℕ} {t : Task} {blocked : Bool}
    {pc : TaskPc} (hplaced : Task.Placed { t with pc }) :
    ∀ u ∈ (s.moveTask i t blocked pc).tasks, u.Placed := by
  intro u hu
  rcases List.mem_or_eq_of_mem_set hu with hold | rfl
  · exact hs u hold
  · exact hplaced

/-- Every step leaves the threads at positions of their pools. -/
theorem placed_of_move (hs : ∀ t ∈ s.tasks, t.Placed) (h : Move processRequest errorPage s a s') :
    ∀ t ∈ s'.tasks, t.Placed := by
  have hat {i : ℕ} {t : Task} (ht : s.tasks[i]? = some t) : t.Placed :=
    hs t (List.mem_of_getElem? ht)
  cases h with
  | fetch =>
    intro t ht
    rcases List.mem_append.mp ht with hold | hnew
    · exact hs t hold
    · obtain rfl := List.mem_singleton.mp hnew
      trivial
  | @lock i t ht _ _ =>
    refine placed_of_moveTask hs ?_
    cases hpool : t.pool <;> simp [Task.Placed, entry]
  | enqueue | unlock | returnUnfinished | read | process =>
    exact placed_of_moveTask hs trivial
  | resume _ _ hpool => exact placed_of_moveTask hs hpool
  | write ht hpc _ _ =>
    have hplaced := hat ht
    rw [Task.Placed, hpc] at hplaced
    exact placed_of_moveTask hs hplaced
  | returnFinished | readd => exact fun t ht => hs t (List.mem_of_mem_eraseIdx ht)
  | unblock =>
    rw [unblockOr_tasks]
    exact hs
  | closeFailed =>
    change ∀ t ∈ (s.closeFailed _).tasks, t.Placed
    rw [closeFailed_tasks]
    exact hs
  | _ => exact hs

/-- A mutex is locked exactly while one thread is in its critical section. -/
def LocksHeld (s : Server) : Prop := ∀ c, s.tasks.countP (·.holds c) = (s.locked c).toNat

/-- A thread that moves is counted where it is critical afterwards, no longer where it was. -/
theorem LocksHeld.countP_moveTask (hs : s.LocksHeld) {i : ℕ} {t : Task}
    (ht : s.tasks[i]? = some t) (blocked : Bool) (pc : TaskPc) (c : ℕ) :
    (s.moveTask i t blocked pc).tasks.countP (·.holds c) + (t.holds c).toNat =
      (s.locked c).toNat + (decide (t.item.data = c) && pc.critical).toNat := by
  rw [moveTask_tasks, countP_set_add ht, hs c]
  rfl

/-- A thread that stays critical, or stays outside, leaves the count as it is. -/
theorem LocksHeld.countP_moveTask_same (hs : s.LocksHeld) {i : ℕ} {t : Task}
    (ht : s.tasks[i]? = some t) (blocked : Bool) {pc : TaskPc}
    (hsame : t.pc.critical = pc.critical) (c : ℕ) :
    (s.moveTask i t blocked pc).tasks.countP (·.holds c) = (s.locked c).toNat := by
  have hcount := hs.countP_moveTask ht blocked pc c
  rw [Task.holds, hsame] at hcount
  exact Nat.add_right_cancel hcount

/-- **Step lemma.** Locking a free mutex. -/
theorem LocksHeld.lock (hs : s.LocksHeld) {i : ℕ} {t : Task} (ht : s.tasks[i]? = some t)
    (hpc : t.pc = .fetched) (hfree : s.locked t.item.data = false) : (s.lock i t).LocksHeld := by
  intro c
  have hentry : (entry t.pool).critical = true := by cases t.pool <;> rfl
  have hcount := hs.countP_moveTask ht t.item.blocked (entry t.pool) c
  rw [Task.holds, hpc, hentry] at hcount
  change (s.moveTask i t t.item.blocked (entry t.pool)).tasks.countP (·.holds c) =
    (Function.update s.locked t.item.data true c).toNat
  by_cases hdata : t.item.data = c
  · subst hdata
    simp [TaskPc.critical, hfree] at hcount
    simp [hcount]
  · rw [Function.update_of_ne (Ne.symm hdata)]
    simpa [hdata] using hcount

/-- **Step lemma.** Unlocking a mutex by the thread that is in its critical section. -/
theorem LocksHeld.unlock (hs : s.LocksHeld) {i : ℕ} {t : Task} (ht : s.tasks[i]? = some t)
    (hcritical : t.pc.critical = true) : (s.unlock i t).LocksHeld := by
  intro c
  have hcount := hs.countP_moveTask ht t.item.blocked .returning c
  rw [Task.holds, hcritical] at hcount
  change (s.moveTask i t t.item.blocked .returning).tasks.countP (·.holds c) =
    (Function.update s.locked t.item.data false c).toNat
  by_cases hdata : t.item.data = c
  · subst hdata
    have hone := Bool.toNat_le (s.locked t.item.data)
    simp only [decide_true, Bool.true_and, Bool.toNat_true, TaskPc.critical, Bool.and_false,
      Bool.toNat_false, Nat.add_zero] at hcount
    rw [Function.update_self, Bool.toNat_false]
    omega
  · rw [Function.update_of_ne (Ne.symm hdata)]
    simpa [hdata] using hcount

/-- No thread holds the mutex of a connection that is about to be accepted. -/
theorem Named.countP_accepted (hnamed : s.Named) : s.tasks.countP (·.holds s.accepted) = 0 := by
  refine List.countP_eq_zero.mpr fun t ht hholds => ?_
  have hlt := hnamed.tasks t ht
  have hdata : t.item.data = s.accepted := by
    simp only [Task.holds, Bool.and_eq_true, decide_eq_true_eq] at hholds
    exact hholds.1
  omega

/-- **Step lemma.** Every step keeps the mutexes and their threads together. -/
theorem LocksHeld.of_move (hs : s.LocksHeld) (hnamed : s.Named)
    (h : Move processRequest errorPage s a s') : s'.LocksHeld := by
  cases h with
  | lock ht hpc hfree => exact hs.lock ht hpc hfree
  | unlock ht hpc =>
    refine hs.unlock ht ?_
    rcases hpc with ⟨hpc, _⟩ | hpc | ⟨hpc, _⟩ <;> rw [hpc] <;> rfl
  | enqueue ht hpc | resume ht hpc _ | read ht hpc _ _ _ | write ht hpc _ _ | process ht hpc _ =>
    exact hs.countP_moveTask_same ht _ (by rw [hpc]; rfl)
  | returnUnfinished ht hpc _ => exact hs.countP_moveTask_same ht _ (by rw [hpc]; rfl)
  | fetch =>
    intro c
    simp only [fetched, List.countP_append, hs c]
    simp [Task.holds, TaskPc.critical]
  | returnFinished ht hpc _ | readd ht hpc =>
    intro c
    have hcount := countP_eraseIdx_add (p := (·.holds c)) ht
    rw [Task.holds, hpc, hs c, TaskPc.critical, Bool.and_false] at hcount
    exact hcount
  | unblock =>
    intro c
    rw [unblockOr_tasks, hs c]
    unfold unblockOr
    split <;> rfl
  | closeFailed =>
    intro c
    change (s.closeFailed _).tasks.countP (·.holds c) = _
    rw [closeFailed_tasks, hs c]
    unfold closeFailed
    split <;> rfl
  | accept | turnAway =>
    intro c
    change s.tasks.countP (·.holds c) = (Function.update s.locked s.accepted false c).toNat
    by_cases hcnew : c = s.accepted
    · rw [hcnew, hnamed.countP_accepted]
      simp
    · rw [Function.update_of_ne hcnew, hs c]
  | _ => exact hs

/-- Along a run the mutexes and their threads stay together. -/
theorem locksHeld_of_run {as : List Action}
    (hrun : (machineWith processRequest errorPage).run as = some s) : s.LocksHeld := by
  have hboth : s.Named ∧ s.LocksHeld := by
    refine (machineWith processRequest errorPage).invariant_of_step
      (I := fun s => s.Named ∧ s.LocksHeld) ?_ ⟨named_of_start, fun c => rfl⟩ hrun
    intro s a t hs hstep
    exact ⟨hs.1.of_move (move_of_step hstep), hs.2.of_move hs.1 (move_of_step hstep)⟩
  exact hboth.2

/-- While the mutex is free, no thread is in its critical section. -/
theorem LocksHeld.not_critical (hs : s.LocksHeld) (hfree : s.locked c = false) {t : Task}
    (ht : t ∈ s.tasks) (hdata : t.item.data = c) : t.pc.critical = false := by
  have hzero : s.tasks.countP (·.holds c) = 0 := by rw [hs c, hfree]; rfl
  have hholds := List.countP_eq_zero.mp hzero t ht
  simpa [Task.holds, hdata] using hholds

/-- Threads in the critical section of one connection have the same number. -/
theorem LocksHeld.index_eq (hs : s.LocksHeld) {i j : ℕ} {t u : Task} (ht : s.tasks[i]? = some t)
    (hu : s.tasks[j]? = some u) (htholds : t.holds c = true) (huholds : u.holds c = true) :
    i = j := by
  have hle : s.tasks.countP (·.holds c) ≤ 1 := by
    rw [hs c]
    exact Bool.toNat_le _
  exact index_eq_of_countP_le_one hle ht hu htholds huholds

/-- While a thread holds the mutex of a connection and does not act, the connection stays as it
is, or the main loop closes it. -/
theorem LocksHeld.conn_eq (hs : s.LocksHeld) (hnamed : s.Named)
    (h : Move processRequest errorPage s a s') {j : ℕ} {u : Task} (hu : s.tasks[j]? = some u)
    (huholds : u.holds c = true) (hact : a.task ≠ some j) :
    s'.conns c = s.conns c ∨ s'.conns c = { s.conns c with out.closed := true } := by
  have hother {i : ℕ} {t : Task} (ht : s.tasks[i]? = some t) (ha : a.task = some i)
      (hdata : t.item.data = c) (hcritical : t.pc.critical = true) : False := by
    have hholds : t.holds c = true := by simp [Task.holds, hdata, hcritical]
    exact hact (hs.index_eq ht hu hholds huholds ▸ ha)
  have hmove := connMove_of_move h c
  generalize s'.conns c = conn at hmove ⊢
  cases hmove with
  | same => exact Or.inl rfl
  | closed => exact Or.inr rfl
  | accepted hc =>
    have hdata : u.item.data = c := by
      simp only [Task.holds, Bool.and_eq_true, decide_eq_true_eq] at huholds
      exact huholds.1
    have hlt := hnamed.tasks u (List.mem_of_getElem? hu)
    omega
  | read ht hpc hdata _ _ | write ht hpc hdata _ | process ht hpc hdata _ =>
    exact (hother ht rfl hdata (by rw [hpc]; rfl)).elim

end Server

end Khttp
