import Khttp.ServerThreads

/-!
# Cleaning up closed connections

The main loop sweeps the queues of the pools one by one for a closed connection, waits
until no item of it is in process in any of them, and deletes it. A thread that adds an
item to a queue that has been swept, or gives one back to it, is too late for this. Where
no thread does so, nothing of a deleted connection is left in the queues and threads.
-/

namespace Khttp

open Lib

/-- The connection that the main loop is cleaning up, and the queues it has still to sweep. -/
def MainPc.toSweep : MainPc → Option (ℕ × List ServerPool)
  | .sweeping c pools _ => some (c, pools)
  | .waiting c _ _ => some (c, [])
  | _ => none

/-- The connection that the main loop waits for, and the pools it has still to wait for. -/
def MainPc.toWait : MainPc → Option (ℕ × List ServerPool)
  | .waiting c pools _ => some (c, pools)
  | _ => none

/-- The pool whose queue the thread adds an item to, or begins to give its own back to. -/
def Task.puts (t : Task) : Option ServerPool :=
  match t.pc with
  | .enqueuing (pool :: _) => some pool
  | .returning => if t.finished then none else some t.pool
  | _ => none

namespace Server

variable {processRequest : ServerEnv → HttpRequest → Option (Option HttpResponse)}
  {errorPage : Option Bytes} {s s' : Server} {a : Action} {c : ℕ} {pool : ServerPool}

/-- While a connection is cleaned up, its threads put items only into queues that have still to be
swept, and no thread is giving one back to a queue that is swept. -/
def PutsBeforeSweep (s : Server) (a : Action) : Prop :=
  ∀ sweep ∈ s.main.toSweep,
    (∀ i ∈ a.task, ∀ t ∈ s.tasks[i]?, t.item.data = sweep.1 → ∀ pool ∈ t.puts, pool ∈ sweep.2) ∧
      (a.isMain = true → ∀ pool ∈ sweep.2.head?, ∀ t ∈ s.tasks, t.pool = pool →
        t.item.data = sweep.1 → t.pc ≠ .readding)

instance (s : Server) (a : Action) : Decidable (s.PutsBeforeSweep a) :=
  inferInstanceAs (Decidable (∀ sweep ∈ s.main.toSweep,
    (∀ i ∈ a.task, ∀ t ∈ s.tasks[i]?, t.item.data = sweep.1 → ∀ pool ∈ t.puts, pool ∈ sweep.2) ∧
      (a.isMain = true → ∀ pool ∈ sweep.2.head?, ∀ t ∈ s.tasks, t.pool = pool →
        t.item.data = sweep.1 → t.pc ≠ .readding)))

/-- Nothing of a connection is left in the queues and threads. -/
structure Gone (s : Server) (c : ℕ) : Prop where
  /-- No queue has an item of it. -/
  items : ∀ pool, ∀ item ∈ (s.pools pool).list, item.data ≠ c
  /-- No item of it is in process. -/
  tokens : ∀ pool, ∀ token ∈ (s.pools pool).processing, token.data ≠ c
  /-- No thread holds an item of it. -/
  tasks : ∀ t ∈ s.tasks, t.item.data ≠ c

/-- How many items of the id the queue of a pool and the threads of the pool have. -/
def idCount (s : Server) (pool : ServerPool) (id : ℕ) : ℕ :=
  (s.pools pool).list.countP (·.id = id) +
    s.tasks.countP (fun t => t.pool = pool ∧ t.item.id = id)

/-- No two items of a pool have the same id, and ids to come are not in use. -/
structure ItemsUnique (s : Server) : Prop where
  /-- An id occurs once at most. -/
  one : ∀ pool id, s.idCount pool id ≤ 1
  /-- The counter is ahead of the ids. -/
  fresh : ∀ pool id, s.nextItem ≤ id → s.idCount pool id = 0

/-- The counter of `queue_item_new` only goes up. -/
theorem nextItem_le_of_move (h : Move processRequest errorPage s a s') :
    s.nextItem ≤ s'.nextItem := by
  cases h with
  | enqueue | addFirst | addAnother => exact Nat.le_succ _
  | unblock =>
    unfold unblockOr
    split <;> exact le_rfl
  | closeFailed =>
    unfold closeFailed
    split <;> exact le_rfl
  | _ => exact le_rfl

/-- A thread that moves keeps its item. -/
theorem countP_moveTask {i : ℕ} {t : Task} {blocked : Bool} {pc : TaskPc}
    (ht : s.tasks[i]? = some t) (id : ℕ) :
    (s.moveTask i t blocked pc).tasks.countP (fun t => t.pool = pool ∧ t.item.id = id) =
      s.tasks.countP (fun t => t.pool = pool ∧ t.item.id = id) := by
  have hcount := countP_set_add (p := fun t => decide (t.pool = pool ∧ t.item.id = id)) ht
    { t with item := { t.item with blocked }, pc }
  rw [moveTask_tasks]
  exact Nat.add_right_cancel hcount

/-- Adding an item to a queue adds its id there. -/
theorem countP_add {changed : ServerPool} {item : QueueItem ℕ} (id : ℕ) :
    (Function.update s.pools changed ((s.pools changed).add item) pool).list.countP (·.id = id) =
      (s.pools pool).list.countP (·.id = id) +
        (decide (pool = changed) && decide (item.id = id)).toNat := by
  rw [list_update]
  split
  · next hpool =>
    subst hpool
    by_cases hid : item.id = id <;> simp [hid]
  · next hpool => simp [hpool]

/-- A new item has the next id. -/
theorem idCount_addItem {changed : ServerPool} {d : ℕ} {tasks : List Task} (id : ℕ)
    (htasks : tasks.countP (fun t => t.pool = pool ∧ t.item.id = id) =
      s.tasks.countP (fun t => t.pool = pool ∧ t.item.id = id)) :
    ((s.addItem changed d).pools pool).list.countP (·.id = id) +
        tasks.countP (fun t => t.pool = pool ∧ t.item.id = id) ≤ s.idCount pool id ∨
      id = s.nextItem ∧ (s.addItem changed d).nextItem = s.nextItem + 1 ∧
        ((s.addItem changed d).pools pool).list.countP (·.id = id) +
          tasks.countP (fun t => t.pool = pool ∧ t.item.id = id) ≤ s.idCount pool id + 1 := by
  have hcount : ((s.addItem changed d).pools pool).list.countP (·.id = id) =
      (s.pools pool).list.countP (·.id = id) +
        (decide (pool = changed) && decide (s.nextItem = id)).toNat := countP_add id
  rw [hcount, htasks, idCount]
  by_cases hid : s.nextItem = id
  · have hle := Bool.toNat_le (decide (pool = changed) && decide (s.nextItem = id))
    exact Or.inr ⟨hid.symm, rfl, by omega⟩
  · left
    simp [hid]

/-- Fetching an item leaves it in the pool. -/
theorem idCount_fetched {changed : ServerPool} {queue : Queue ℕ} {item : QueueItem ℕ}
    (hfetch : (s.pools changed).fetchone = (queue, some item)) (pool : ServerPool) (id : ℕ) :
    (s.fetched changed queue item).idCount pool id = s.idCount pool id := by
  obtain ⟨_, before, after, hlist, hrest, _⟩ := list_of_fetchone hfetch
  simp only [idCount, fetched, list_update, List.countP_append]
  by_cases hpool : pool = changed
  · subst hpool
    simp only [if_pos, hrest, hlist, List.countP_append, List.countP_cons, List.countP_nil,
      true_and]
    omega
  · simp [hpool, Ne.symm hpool]

/-- Giving an item back leaves it in the pool. -/
theorem idCount_readdItem {i : ℕ} {t : Task} (ht : s.tasks[i]? = some t) (pool : ServerPool)
    (id : ℕ) : (s.readdItem i t).idCount pool id = s.idCount pool id := by
  have hlist : ((s.readdItem i t).pools pool).list.countP (·.id = id) =
      (s.pools pool).list.countP (·.id = id) +
        (decide (pool = t.pool) && decide (t.item.id = id)).toNat := countP_add id
  have hcount := countP_eraseIdx_add (p := fun t => decide (t.pool = pool ∧ t.item.id = id)) ht
  unfold idCount
  rw [hlist, ← hcount]
  change _ + (s.tasks.eraseIdx i).countP _ = _
  by_cases hpool : pool = t.pool
  · subst hpool
    simp
    omega
  · simp [hpool, Ne.symm hpool]

/-- A step adds no item but one of the next id. -/
theorem idCount_of_move (h : Move processRequest errorPage s a s') (pool : ServerPool) (id : ℕ) :
    s'.idCount pool id ≤ s.idCount pool id ∨
      id = s.nextItem ∧ s'.nextItem = s.nextItem + 1 ∧
        s'.idCount pool id ≤ s.idCount pool id + 1 := by
  cases h with
  | fetch hfetch => exact Or.inl (idCount_fetched hfetch pool id).le
  | enqueue ht _ => exact idCount_addItem id (countP_moveTask ht id)
  | addFirst | addAnother => exact idCount_addItem id rfl
  | lock ht _ _ | resume ht _ _ | unlock ht _ | read ht _ _ _ _ | write ht _ _ _
  | process ht _ _ =>
    left
    exact (Nat.add_left_cancel_iff.mpr (countP_moveTask ht id)).le
  | @returnUnfinished i t ht _ _ =>
    left
    have hlist := dropToken_list s t pool
    have htasks : (s.returnUnfinished i t).tasks.countP (fun t => t.pool = pool ∧ t.item.id = id) =
        s.tasks.countP (fun t => t.pool = pool ∧ t.item.id = id) :=
      countP_moveTask (s := s.dropToken t) ht id
    change ((s.dropToken t).pools pool).list.countP _ + _ ≤ _
    rw [hlist, htasks, idCount]
  | @returnFinished i t ht _ _ =>
    left
    have hlist := dropToken_list s t pool
    have hcount := countP_eraseIdx_add (p := fun t => decide (t.pool = pool ∧ t.item.id = id)) ht
    simp only [idCount, returnFinished, hlist]
    omega
  | readd ht _ => exact Or.inl (idCount_readdItem ht pool id).le
  | unblock =>
    left
    simp only [idCount, unblockOr_pools, unblockOr_tasks, list_update]
    split
    · next hpool =>
      subst hpool
      simp only [Queue.unblockByptr, List.countP_map]
      refine Nat.add_le_add_right (le_of_eq (List.countP_congr fun item _ => ?_)) _
      simp only [Function.comp_apply]
      split <;> rfl
    · exact le_rfl
  | closeFailed =>
    left
    change ((s.closeFailed _).pools pool).list.countP _ + (s.closeFailed _).tasks.countP _ ≤ _
    rw [closeFailed_pools, closeFailed_tasks]
    exact le_rfl
  | sweep =>
    left
    simp only [idCount, sweep, atMain, list_update]
    split
    · next hpool =>
      subst hpool
      exact Nat.add_le_add_right (List.filter_sublist.countP_le) _
    · exact le_rfl
  | _ => exact Or.inl le_rfl

/-- Every step keeps the ids unique. -/
theorem ItemsUnique.of_move (hs : s.ItemsUnique) (h : Move processRequest errorPage s a s') :
    s'.ItemsUnique := by
  refine ⟨fun pool id => ?_, fun pool id hid => ?_⟩
  · have hone := hs.one pool id
    rcases idCount_of_move h pool id with hle | ⟨hid, _, hle⟩
    · omega
    · have hzero := hs.fresh pool id hid.ge
      omega
  · have hnext := nextItem_le_of_move h
    have hzero := hs.fresh pool id (by omega)
    rcases idCount_of_move h pool id with hle | ⟨hnew, hmore, _⟩ <;> omega

/-- Threads of a pool that hold items of one id have the same number. -/
theorem ItemsUnique.index_eq (hs : s.ItemsUnique) {i j : ℕ} {t u : Task}
    (ht : s.tasks[i]? = some t) (hu : s.tasks[j]? = some u) (hpool : u.pool = t.pool)
    (hid : u.item.id = t.item.id) : i = j := by
  have hone := hs.one t.pool t.item.id
  unfold idCount at hone
  exact index_eq_of_countP_le_one (p := fun u => u.pool = t.pool ∧ u.item.id = t.item.id)
    (by omega) ht hu (by simp) (by simp [hpool, hid])

/-- What a step does to the tokens of a pool. -/
theorem processing_of_move (h : Move processRequest errorPage s a s') (pool : ServerPool) :
    (s'.pools pool).processing = (s.pools pool).processing ∨
      (∃ item ∈ (s.pools pool).list, (s'.pools pool).processing =
        (s.pools pool).processing ++ [⟨item.id, item.data⟩]) ∨
      ∃ i t, a.task = some i ∧ s.tasks[i]? = some t ∧ t.pc = .returning ∧ t.pool = pool ∧
        (s'.pools pool).processing = (s.pools pool).processing.filter (·.qid ≠ t.item.id) := by
  have hsame {changed : ServerPool} {queue : Queue ℕ}
      (hqueue : queue.processing = (s.pools changed).processing) :
      (Function.update s.pools changed queue pool).processing = (s.pools pool).processing := by
    by_cases hpool : pool = changed
    · subst hpool
      rw [Function.update_self, hqueue]
    · rw [Function.update_of_ne hpool]
  have hreturn {i : ℕ} {t : Task} (ha : a.task = some i) (ht : s.tasks[i]? = some t)
      (hpc : t.pc = .returning) :
      ((s.dropToken t).pools pool).processing = (s.pools pool).processing ∨
        (∃ item ∈ (s.pools pool).list, ((s.dropToken t).pools pool).processing =
          (s.pools pool).processing ++ [⟨item.id, item.data⟩]) ∨
        ∃ i u, a.task = some i ∧ s.tasks[i]? = some u ∧ u.pc = .returning ∧ u.pool = pool ∧
          ((s.dropToken t).pools pool).processing =
            (s.pools pool).processing.filter (·.qid ≠ u.item.id) := by
    by_cases hpool : t.pool = pool
    · subst hpool
      exact Or.inr (Or.inr ⟨i, t, ha, ht, hpc, rfl, by simp [dropToken]⟩)
    · exact Or.inl (by simp [dropToken, Ne.symm hpool])
  cases h with
  | @fetch changed queue item hfetch =>
    obtain ⟨_, before, after, hlist, _, hprocessing⟩ := list_of_fetchone hfetch
    by_cases hpool : pool = changed
    · subst hpool
      exact Or.inr (Or.inl ⟨item, by simp [hlist], by simp [fetched, hprocessing]⟩)
    · exact Or.inl (by simp [fetched, hpool])
  | returnFinished ht hpc _ | returnUnfinished ht hpc _ => exact hreturn rfl ht hpc
  | enqueue | readd | addFirst | addAnother => exact Or.inl (hsame rfl)
  | unblock =>
    rw [unblockOr_pools]
    exact Or.inl (hsame rfl)
  | closeFailed =>
    change ((s.closeFailed _).pools pool).processing = _ ∨ _
    rw [closeFailed_pools]
    exact Or.inl rfl
  | sweep => exact Or.inl (hsame rfl)
  | _ => exact Or.inl rfl

/-- A thread that holds an item has its token in its pool, but where it gives the item back. -/
def TokensHeld (s : Server) : Prop :=
  ∀ t ∈ s.tasks, t.pc ≠ .readding → ⟨t.item.id, t.item.data⟩ ∈ (s.pools t.pool).processing

/-- Every step keeps the tokens of the threads. -/
theorem TokensHeld.of_move (hs : s.TokensHeld) (hunique : s.ItemsUnique)
    (h : Move processRequest errorPage s a s') : s'.TokensHeld := by
  intro t ht hpc
  cases taskOrigin_of_move h ht with
  | @kept j hj hact =>
    have htoken := hs t (List.mem_of_getElem? hj) hpc
    rcases processing_of_move h t.pool with hsame | ⟨item, _, hmore⟩ |
      ⟨i, u, ha, hu, _, hpool, hless⟩
    · rwa [hsame]
    · rw [hmore]
      exact List.mem_append_left _ htoken
    · rw [hless]
      refine List.mem_filter.mpr ⟨htoken, ?_⟩
      by_contra hid
      have hij := hunique.index_eq hu hj hpool.symm (by simpa using hid)
      exact hact (hij ▸ ha)
  | fetched ha hfetch ht =>
    subst ha ht
    cases h with
    | fetch hfetch' =>
      obtain ⟨rfl, hitem⟩ := Prod.mk.inj (hfetch.symm.trans hfetch')
      obtain rfl := Option.some.inj hitem
      obtain ⟨_, before, after, _, _, hprocessing⟩ := list_of_fetchone hfetch
      simp [Server.fetched, hprocessing]
  | @acted i before ha hbefore hpool hid hdata hgap hreturns =>
    have hnotReturning := (hreturns.resolve_left fun hreadding => hpc hreadding.1).2
    have htoken := hs before (List.mem_of_getElem? hbefore) hgap
    rw [hpool, hid, hdata]
    rcases processing_of_move h before.pool with hsame | ⟨item, _, hmore⟩ |
      ⟨j, u, ha', hu, hureturning, _, _⟩
    · rwa [hsame]
    · rw [hmore]
      exact List.mem_append_left _ htoken
    · obtain rfl := Option.some.inj (ha.symm.trans ha')
      obtain rfl := Option.some.inj (hbefore.symm.trans hu)
      exact absurd hureturning hnotReturning

/-- Where the tokens after a step come from. -/
theorem tokenOrigin_of_move (h : Move processRequest errorPage s a s')
    {token : QueuePendingItem ℕ} (htoken : token ∈ (s'.pools pool).processing) :
    token ∈ (s.pools pool).processing ∨
      ∃ item ∈ (s.pools pool).list, token.data = item.data := by
  rcases processing_of_move h pool with hsame | ⟨item, hitem, hmore⟩ | ⟨_, _, _, _, _, _, hless⟩
  · exact Or.inl (hsame ▸ htoken)
  · rw [hmore] at htoken
    rcases List.mem_append.mp htoken with hold | hnew
    · exact Or.inl hold
    · obtain rfl := List.mem_singleton.mp hnew
      exact Or.inr ⟨item, hitem, rfl⟩
  · rw [hless] at htoken
    exact Or.inl (List.mem_of_mem_filter htoken)

/-- The tokens carry names of accepted connections. -/
def TokensNamed (s : Server) : Prop :=
  ∀ pool, ∀ token ∈ (s.pools pool).processing, token.data < s.accepted

/-- Every step keeps to tokens with names in use. -/
theorem TokensNamed.of_move (hs : s.TokensNamed) (hnamed : s.Named)
    (h : Move processRequest errorPage s a s') : s'.TokensNamed := by
  intro pool token htoken
  refine lt_of_lt_of_le ?_ (accepted_le_of_move h)
  rcases tokenOrigin_of_move h htoken with hold | ⟨item, hitem, hdata⟩
  · exact hs pool token hold
  · exact hdata ▸ hnamed.items pool item hitem

/-- Nothing comes back of a connection, unless the main loop adds an item for it. -/
theorem Gone.of_move (hs : s.Gone c) (hadds : s.main.adds ≠ some c)
    (h : Move processRequest errorPage s a s') : s'.Gone c := by
  refine ⟨fun pool item hitem => ?_, fun pool token htoken => ?_, fun t ht => ?_⟩
  · cases itemOrigin_of_move h hitem with
    | kept hold _ hdata => exact hdata ▸ hs.items pool _ hold
    | main _ hmain => exact fun hdata => hadds (hdata ▸ hmain)
    | thread _ ht _ hdata => exact hdata ▸ hs.tasks _ (List.mem_of_getElem? ht)
  · rcases tokenOrigin_of_move h htoken with hold | ⟨item, hitem, hdata⟩
    · exact hs.tokens pool token hold
    · exact hdata ▸ hs.items pool item hitem
  · cases taskOrigin_of_move h ht with
    | kept hj _ => exact hs.tasks t (List.mem_of_getElem? hj)
    | @fetched pool queue item _ hfetch ht =>
      obtain ⟨_, before, after, hlist, _⟩ := list_of_fetchone hfetch
      exact ht ▸ hs.items pool item (by simp [hlist])
    | acted _ hbefore _ _ hdata _ _ => exact hdata ▸ hs.tasks _ (List.mem_of_getElem? hbefore)

/-- The list of clients has no connection twice and none that is deleted. -/
structure ClientsKept (s : Server) : Prop where
  /-- None twice. -/
  nodup : s.clients.Nodup
  /-- None that is deleted. -/
  kept : ∀ c, s.deleted c = true → c ∉ s.clients

/-- Every step keeps the list of clients so. -/
theorem ClientsKept.of_move (hs : s.ClientsKept) (hnamed : s.Named)
    (h : Move processRequest errorPage s a s') : s'.ClientsKept := by
  have hfresh : s.accepted ∉ s.clients := fun hmem => absurd (hnamed.clients _ hmem) (by omega)
  cases h with
  | unblock =>
    unfold unblockOr
    split <;> exact ⟨hs.nodup, hs.kept⟩
  | closeFailed =>
    unfold closeFailed
    split <;> exact ⟨hs.nodup, hs.kept⟩
  | @delete d clients hmain =>
    refine ⟨hs.nodup.erase d, fun c hc hmem => ?_⟩
    by_cases hcd : c = d
    · subst hcd
      exact hs.nodup.not_mem_erase hmem
    · have hc : s.deleted c = true := by simpa [deleteConnection, atMain, hcd] using hc
      exact hs.kept c hc (List.mem_of_mem_erase hmem)
  | accept =>
    refine ⟨?_, fun c hc hmem => ?_⟩
    · refine List.nodup_append.mpr ⟨hs.nodup, List.nodup_singleton _, fun x hx y hy heq => ?_⟩
      rw [heq, List.mem_singleton.mp hy] at hx
      exact hfresh hx
    · have hnew : c ≠ s.accepted := by
        rintro rfl
        simp [enlist, acceptSocket] at hc
      have hc : s.deleted c = true := by simpa [enlist, acceptSocket, hnew] using hc
      refine hs.kept c hc ?_
      simpa [enlist, hnew] using hmem
  | turnAway =>
    refine ⟨hs.nodup, fun c hc hmem => ?_⟩
    by_cases hnew : c = s.accepted
    · exact hfresh (hnew ▸ hmem)
    · have hc : s.deleted c = true := by simpa [turnAway, hnew] using hc
      exact hs.kept c hc hmem
  | _ => exact ⟨hs.nodup, hs.kept⟩

/-- Where a deleted connection comes from. -/
theorem deleted_of_move (h : Move processRequest errorPage s a s') (hc : s'.deleted c = true) :
    s.deleted c = true ∨ (∃ clients, s.main = .waiting c [] clients) ∨ c = s.accepted := by
  cases h with
  | unblock =>
    unfold unblockOr at hc
    split at hc <;> exact Or.inl hc
  | closeFailed =>
    unfold closeFailed at hc
    split at hc <;> exact Or.inl hc
  | @delete d clients hmain =>
    by_cases hcd : c = d
    · exact Or.inr (Or.inl ⟨clients, hcd ▸ hmain⟩)
    · exact Or.inl (by simpa [deleteConnection, atMain, hcd] using hc)
  | accept =>
    by_cases hnew : c = s.accepted
    · exact Or.inr (Or.inr hnew)
    · exact Or.inl (by simpa [enlist, acceptSocket, hnew] using hc)
  | turnAway =>
    by_cases hnew : c = s.accepted
    · exact Or.inr (Or.inr hnew)
    · exact Or.inl (by simpa [turnAway, hnew] using hc)
  | _ => exact Or.inl hc

/-- The queue of a pool has been swept for a connection, and none of its items comes back. -/
structure Swept (s : Server) (c : ℕ) (pool : ServerPool) : Prop where
  /-- The queue has no item of it. -/
  items : ∀ item ∈ (s.pools pool).list, item.data ≠ c
  /-- No thread is giving one back. -/
  noGap : ∀ t ∈ s.tasks, t.pool = pool → t.item.data = c → t.pc ≠ .readding

/-- A queue stays swept where no thread puts an item into it. -/
theorem Swept.of_move (hs : s.Swept c pool) (hadds : s.main.adds ≠ some c)
    (hputs : ∀ i ∈ a.task, ∀ t ∈ s.tasks[i]?, t.item.data = c → t.puts ≠ some pool)
    (h : Move processRequest errorPage s a s') : s'.Swept c pool := by
  refine ⟨fun item hitem hdata => ?_, fun t ht hpool hdata hpc => ?_⟩
  · cases itemOrigin_of_move h hitem with
    | kept hold _ hsame => exact hs.items _ hold (hsame ▸ hdata)
    | main _ hmain => exact hadds (hdata ▸ hmain)
    | @thread i t ha ht hadd hsame =>
      have hdata : t.item.data = c := hsame ▸ hdata
      rcases hadd with ⟨pools, hpc⟩ | ⟨hpc, hpool⟩
      · exact hputs i ha t ht hdata (by simp [Task.puts, hpc])
      · exact hs.noGap t (List.mem_of_getElem? ht) hpool hdata hpc
  · cases taskOrigin_of_move h ht with
    | kept hj _ => exact hs.noGap t (List.mem_of_getElem? hj) hpool hdata hpc
    | fetched _ _ ht => simp [ht] at hpc
    | @acted i before ha hbefore hpoolEq _ hdataEq _ hreturns =>
      obtain ⟨_, hreturning, hunfinished⟩ := hreturns.resolve_right fun hnot => hnot.1 hpc
      refine hputs i ha before hbefore (hdataEq ▸ hdata) ?_
      simp [Task.puts, hreturning, hunfinished, ← hpoolEq, hpool]

/-- How the main loop comes to the queues that it has still to sweep. -/
theorem toSweep_of_move (h : Move processRequest errorPage s a s') {rest : List ServerPool}
    (hrest : s'.main.toSweep = some (c, rest)) :
    s.main.toSweep = some (c, rest) ∨ rest = allPools ∨
      ∃ pool clients, a = .main ∧ s.main = .sweeping c (pool :: rest) clients ∧
        s' = (s.sweep pool c).atMain (.sweeping c rest clients) := by
  cases h with
  | startSweeping =>
    obtain ⟨rfl, rfl⟩ := Prod.mk.inj (Option.some.inj hrest)
    exact Or.inr (Or.inl rfl)
  | sweep hmain =>
    obtain ⟨rfl, rfl⟩ := Prod.mk.inj (Option.some.inj hrest)
    exact Or.inr (Or.inr ⟨_, _, rfl, hmain, rfl⟩)
  | startWaiting hmain | wait hmain _ =>
    left
    rw [hmain]
    exact hrest
  | unblock =>
    unfold unblockOr at hrest
    split at hrest <;> simp [atMain, finishEvent, MainPc.toSweep] at hrest
  | startCleaning | listen | hangUp | addFirst | addAnother | endCleaning | closeFailed | skip
  | delete | poll | accept | acceptNone =>
    simp [atMain, finishEvent, polled, enlist, MainPc.toSweep] at hrest
  | _ => exact Or.inl hrest

/-- How the main loop comes to the pools that it has still to wait for. -/
theorem toWait_of_move (h : Move processRequest errorPage s a s') {rest : List ServerPool}
    (hrest : s'.main.toWait = some (c, rest)) :
    s.main.toWait = some (c, rest) ∨ rest = allPools ∨
      ∃ pool, s.main.toWait = some (c, pool :: rest) ∧ s'.pools = s.pools ∧
        (s.pools pool).pendingByptr c = none := by
  cases h with
  | startWaiting =>
    obtain ⟨rfl, rfl⟩ := Prod.mk.inj (Option.some.inj hrest)
    exact Or.inr (Or.inl rfl)
  | @wait d pool pools clients hmain hnone =>
    obtain ⟨rfl, rfl⟩ := Prod.mk.inj (Option.some.inj hrest)
    exact Or.inr (Or.inr ⟨pool, by rw [hmain]; rfl, rfl, hnone⟩)
  | unblock =>
    unfold unblockOr at hrest
    split at hrest <;> simp [atMain, finishEvent, MainPc.toWait] at hrest
  | startCleaning | listen | hangUp | addFirst | addAnother | endCleaning | closeFailed | skip
  | startSweeping | sweep | delete | poll | accept | acceptNone =>
    simp [atMain, finishEvent, polled, enlist, MainPc.toWait] at hrest
  | _ => exact Or.inl hrest

/-- While the main loop cleans up, it adds no items. -/
theorem MainPc.adds_of_toSweep {main : MainPc} {sweep : ℕ × List ServerPool}
    (h : main.toSweep = some sweep) : main.adds = none := by
  cases main <;> simp [MainPc.toSweep, MainPc.adds] at h ⊢

/-- While the main loop waits, all queues have been swept. -/
theorem MainPc.toSweep_of_toWait {main : MainPc} {pools : List ServerPool}
    (h : main.toWait = some (c, pools)) : main.toSweep = some (c, []) := by
  cases main <;> simp [MainPc.toSweep, MainPc.toWait] at h ⊢
  exact h.1

/-- A pool without a pending token of the connection has none of it. -/
theorem ne_of_pendingByptr {queue : Queue ℕ} (h : queue.pendingByptr c = none)
    {token : QueuePendingItem ℕ} (htoken : token ∈ queue.processing) : token.data ≠ c := by
  have hfind := List.find?_eq_none.mp (Option.map_eq_none_iff.mp h) token htoken
  simpa using hfind

/-- What has been swept and waited for stays so. -/
structure SweepKept (s : Server) : Prop where
  /-- The queues that have been swept. -/
  swept : ∀ c rest, s.main.toSweep = some (c, rest) → ∀ pool, pool ∉ rest → s.Swept c pool
  /-- The pools that have been waited for. -/
  waited : ∀ c rest, s.main.toWait = some (c, rest) → ∀ pool, pool ∉ rest →
    ∀ token ∈ (s.pools pool).processing, token.data ≠ c

/-- All pools are in the list. -/
theorem mem_allPools (pool : ServerPool) : pool ∈ allPools := by cases pool <;> decide

/-- The queue that the main loop sweeps is swept. -/
theorem swept_of_sweep (hgood : s.PutsBeforeSweep .main) {rest : List ServerPool}
    {clients : List ℕ} (hmain : s.main = .sweeping c (pool :: rest) clients) :
    ((s.sweep pool c).atMain (.sweeping c rest clients)).Swept c pool := by
  refine ⟨fun item hitem hdata => ?_, fun t ht hpool hdata => ?_⟩
  · have hitem : item ∈ (s.pools pool).list.filter (·.data ≠ c) := by
      simpa [sweep, atMain, Queue.removeByptr] using hitem
    have hne := List.of_mem_filter hitem
    simp [hdata] at hne
  · exact (hgood (c, pool :: rest) (by rw [hmain]; rfl)).2 rfl pool rfl t ht hpool hdata

/-- Steps that put items only into queues that have still to be swept keep those that have been
swept so. -/
theorem SweepKept.of_move (hs : s.SweepKept) (hgood : s.PutsBeforeSweep a)
    (h : Move processRequest errorPage s a s') : s'.SweepKept := by
  have hstays {rest : List ServerPool} {c : ℕ} (hrest : s.main.toSweep = some (c, rest))
      {pool : ServerPool} (hpool : pool ∉ rest) : s'.Swept c pool := by
    refine (hs.swept c rest hrest pool hpool).of_move ?_ (fun i hi t ht hdata hputs => ?_) h
    · simp [MainPc.adds_of_toSweep hrest]
    · exact hpool ((hgood (c, rest) hrest).1 i hi t ht hdata pool hputs)
  refine ⟨fun c rest hrest pool hpool => ?_, fun c rest hrest pool hpool token htoken => ?_⟩
  · rcases toSweep_of_move h hrest with hsame | rfl | ⟨swept, clients, rfl, hmain, rfl⟩
    · exact hstays hsame hpool
    · exact absurd (mem_allPools pool) hpool
    · by_cases hnow : pool = swept
      · subst hnow
        exact swept_of_sweep hgood hmain
      · have hbefore : s.main.toSweep = some (c, swept :: rest) := by rw [hmain]; rfl
        exact hstays hbefore (by simp [hnow, hpool])
  · rcases toWait_of_move h hrest with hsame | rfl | ⟨waited, hbefore, hpools, hnone⟩
    · have hswept := hs.swept c [] (MainPc.toSweep_of_toWait hsame) pool (by simp)
      rcases tokenOrigin_of_move h htoken with hold | ⟨item, hitem, hdata⟩
      · exact hs.waited c rest hsame pool hpool token hold
      · exact hdata ▸ hswept.items item hitem
    · exact absurd (mem_allPools pool) hpool
    · rw [hpools] at htoken
      by_cases hnow : pool = waited
      · exact ne_of_pendingByptr hnone (hnow ▸ htoken)
      · exact hs.waited c _ hbefore pool (by simp [hnow, hpool]) token htoken

/-- What the proofs about deleted connections rest on. -/
structure CleanUpKept (s : Server) : Prop where
  /-- The names in use. -/
  named : s.Named
  /-- The names that the tokens carry. -/
  tokensNamed : s.TokensNamed
  /-- The ids. -/
  unique : s.ItemsUnique
  /-- The tokens of the threads. -/
  tokens : s.TokensHeld
  /-- The list of clients. -/
  clients : s.ClientsKept
  /-- The queues that have been swept. -/
  sweeps : s.SweepKept
  /-- The connections that have been deleted. -/
  gone : ∀ c, s.deleted c = true → s.Gone c

/-- Where all queues have been swept and all pools waited for, nothing is left. -/
theorem CleanUpKept.gone_of_waiting (hs : s.CleanUpKept) {clients : List ℕ}
    (hmain : s.main = .waiting c [] clients) : s.Gone c := by
  have hswept (pool : ServerPool) : s.Swept c pool :=
    hs.sweeps.swept c [] (by rw [hmain]; rfl) pool (by simp)
  have hwaited (pool : ServerPool) : ∀ token ∈ (s.pools pool).processing, token.data ≠ c :=
    hs.sweeps.waited c [] (by rw [hmain]; rfl) pool (by simp)
  refine ⟨fun pool => (hswept pool).items, hwaited, fun t ht hdata => ?_⟩
  have hpc : t.pc ≠ .readding := (hswept t.pool).noGap t ht rfl hdata
  exact hwaited t.pool _ (hs.tokens t ht hpc) hdata

/-- Every step that puts items only into queues still to be swept leaves nothing of deleted
connections. -/
theorem CleanUpKept.of_move (hs : s.CleanUpKept) (hgood : s.PutsBeforeSweep a)
    (h : Move processRequest errorPage s a s') : s'.CleanUpKept := by
  refine ⟨hs.named.of_move h, hs.tokensNamed.of_move hs.named h, hs.unique.of_move h,
    hs.tokens.of_move hs.unique h, hs.clients.of_move hs.named h, hs.sweeps.of_move hgood h,
    fun c hdeleted => ?_⟩
  rcases deleted_of_move h hdeleted with hold | ⟨clients, hmain⟩ | rfl
  · exact (hs.gone c hold).of_move (fun hadds => hs.clients.kept c hold (hs.named.main c hadds)) h
  · exact (hs.gone_of_waiting hmain).of_move (by simp [hmain, MainPc.adds]) h
  · have hgone : s.Gone s.accepted :=
      ⟨fun pool item hitem => (hs.named.items pool item hitem).ne,
        fun pool token htoken => (hs.tokensNamed pool token htoken).ne,
        fun t ht => (hs.named.tasks t ht).ne⟩
    refine hgone.of_move (fun hadds => ?_) h
    exact absurd (hs.named.clients _ (hs.named.main _ hadds)) (lt_irrefl _)

/-- The server starts without clients and items. -/
theorem cleanUpKept_of_start : CleanUpKept .start := by
  refine ⟨named_of_start, ?_, ⟨?_, ?_⟩, ?_, ⟨?_, ?_⟩, ⟨?_, ?_⟩, ?_⟩ <;>
    simp [Server.start, TokensNamed, TokensHeld, idCount, Queue.new, MainPc.toSweep, MainPc.toWait]

/-- In every run in which items are put only into queues that have still to be swept, nothing of
a deleted connection is left in the queues and threads. -/
theorem gone_of_meets {as : List Action} {s : Server}
    (hmeets : (machineWith processRequest errorPage).Meets PutsBeforeSweep .start as)
    (hrun : (machineWith processRequest errorPage).run as = some s) (c : ℕ)
    (hdeleted : s.deleted c = true) : s.Gone c := by
  have hinv : s.CleanUpKept :=
    (machineWith processRequest errorPage).invariant PutsBeforeSweep CleanUpKept
      (fun _ _ _ hs hgood hstep => hs.of_move hgood (move_of_step hstep)) cleanUpKept_of_start
      hmeets hrun
  exact hinv.gone c hdeleted

/-- A client connects, and its first read pass finds no bytes and lets go of the connection. -/
def firstPass : List Action :=
  [.poll [.listening], .main, .accept 5 true, .main, .acceptNone, .main, .main, .main, .main,
    .fetch .poolRead, .tick 0, .read 0 .wouldBlock 0 1, .tick 0]

/-- The client hangs up, and all queues are swept. -/
def hangUpSwept : List Action :=
  [.poll [.client 0 ⟨false, true, false, false⟩], .main, .main, .main, .main, .main, .main, .main,
    .main]

/-- The pools are waited for, and the connection is deleted. -/
def waitedDeleted : List Action := [.main, .main, .main, .main]

/-- An item that is given back before the queues are swept leaves nothing. -/
theorem gone_firstPass : ∃ s,
    (serverMachine (configServerNew []) none).run
      (firstPass ++ [.tick 0, .tick 0] ++ hangUpSwept ++ waitedDeleted) = some s ∧
      s.deleted 0 = true ∧ s.Gone 0 := by
  have hstate : ((serverMachine (configServerNew []) none).run
      (firstPass ++ [.tick 0, .tick 0] ++ hangUpSwept ++ waitedDeleted)).map (·.deleted 0) =
        some true := by decide +kernel
  obtain ⟨s, hrun, hs⟩ := Option.map_eq_some_iff.mp hstate
  exact ⟨s, hrun, hs, gone_of_meets (by decide +kernel) hrun 0 hs⟩

/-- An item that is given back to a queue that has been swept stays behind. -/
theorem not_gone_lateReturn : ∃ s,
    (serverMachine (configServerNew []) none).run
      (firstPass ++ hangUpSwept ++ [.tick 0] ++ waitedDeleted ++ [.tick 0]) = some s ∧
      s.deleted 0 = true ∧ ¬s.Gone 0 := by
  have hstate : ((serverMachine (configServerNew []) none).run
      (firstPass ++ hangUpSwept ++ [.tick 0] ++ waitedDeleted ++ [.tick 0])).map
        (fun s => (s.deleted 0, (s.pools .poolRead).list)) = some (true, [⟨1, true, 0⟩]) := by
    decide +kernel
  obtain ⟨s, hrun, hs⟩ := Option.map_eq_some_iff.mp hstate
  obtain ⟨hdeleted, hlist⟩ := Prod.mk.inj hs
  exact ⟨s, hrun, hdeleted, fun hgone => hgone.items .poolRead ⟨1, true, 0⟩ (by simp [hlist]) rfl⟩

end Server

end Khttp
