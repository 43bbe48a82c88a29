import Khttp.Lib.Machine
import Khttp.Queue
import Mathlib.Data.List.Nodup

/-!
# Where an unfinished item is to be found

Any number of threads call `queue_add`, `queue_fetchone`, `queue_return_item`,
`queue_remove` and `queue_remove_byptr` on one queue. Every step below is one
section under the queue's mutex, so the states of a run are exactly those seen by
whoever takes the mutex next. A call between two of its sections is represented by
the item in its hands. Threads have no other state here.
-/

namespace Khttp

variable {δ : Type*}

/-- How often an id stands in a list of items. -/
def idCount (items : List (QueueItem δ)) (id : ℕ) : ℕ := (items.map (·.id)).count id

/-- Taking the item with an id out of a list lowers that id's count by one. -/
theorem idCount_eraseP {items : List (QueueItem δ)} {itemid : ℕ} {item : QueueItem δ}
    (hfind : items.find? (·.id == itemid) = some item) (id : ℕ) :
    item.id = itemid ∧
      idCount (items.eraseP (·.id == itemid)) id + (if itemid = id then 1 else 0) =
        idCount items id := by
  obtain ⟨hitem, before, after, hlist, hbefore⟩ := List.find?_eq_some_iff_append.mp hfind
  have hid : item.id = itemid := by simpa using hitem
  refine ⟨hid, ?_⟩
  rw [hlist, List.eraseP_append_right _ (by simpa using hbefore)]
  simp only [idCount, List.eraseP_cons, hid, beq_self_eq_true, cond_true, List.map_append,
    List.map_cons, List.count_append, List.count_cons, beq_iff_eq]
  omega

namespace Queue

/-- How often an id stands in the list. -/
def queued (q : Queue δ) (id : ℕ) : ℕ := idCount q.list id

/-- How many tokens carry an id. -/
def tokens (q : Queue δ) (id : ℕ) : ℕ := (q.processing.map (·.qid)).count id

@[simp] theorem queued_add (q : Queue δ) (item : QueueItem δ) (id : ℕ) :
    (q.add item).queued id = q.queued id + if item.id = id then 1 else 0 := by
  simp [queued, idCount, List.count_singleton]

@[simp] theorem tokens_add (q : Queue δ) (item : QueueItem δ) (id : ℕ) :
    (q.add item).tokens id = q.tokens id := rfl

@[simp] theorem queued_pendingRemove (q : Queue δ) (itemid id : ℕ) :
    (q.pendingRemove itemid).queued id = q.queued id := rfl

/-- `QUEUE_PENDING_REMOVE` leaves no token of the id and every other token. -/
@[simp] theorem tokens_pendingRemove (q : Queue δ) (itemid id : ℕ) :
    (q.pendingRemove itemid).tokens id = if id = itemid then 0 else q.tokens id := by
  unfold tokens
  rw [pendingRemove_processing]
  induction q.processing with
  | nil => simp
  | cons token rest ih =>
    by_cases htoken : token.qid = itemid <;> by_cases hid : id = itemid <;>
      simp_all [List.count_cons]
    omega

/-- A fetch either changes nothing or turns one place in the list into one token. -/
theorem fetchone_counts (q : Queue δ) :
    q.fetchone = (q, none) ∨
      ∃ item, q.fetchone.2 = some item ∧ ∀ id,
        q.fetchone.1.queued id + (if item.id = id then 1 else 0) = q.queued id ∧
        q.fetchone.1.tokens id = q.tokens id + if item.id = id then 1 else 0 := by
  rcases q.fetchone_cases with h | ⟨before, item, after, hlist, _, h⟩
  · exact Or.inl h
  · refine Or.inr ⟨item, by rw [h], fun id => ?_⟩
    rw [h]
    simp only [queued, idCount, tokens, hlist, List.map_append, List.map_cons, List.count_append,
      List.count_cons, List.map_nil, List.count_nil, beq_iff_eq]
    omega

/-- The ids that `queue_remove_byptr` takes out. -/
def idsByptr [DecidableEq δ] (q : Queue δ) (ptr : δ) : List ℕ :=
  (q.list.filter (·.data = ptr)).map (·.id)

/-- `queue_remove_byptr` splits the list into what stays and what it takes out. -/
theorem queued_removeByptr [DecidableEq δ] (q : Queue δ) (ptr : δ) (id : ℕ) :
    (q.removeByptr ptr).1.queued id + (q.idsByptr ptr).count id = q.queued id := by
  unfold queued idCount idsByptr removeByptr
  induction q.list with
  | nil => rfl
  | cons elem rest ih =>
    by_cases hdata : elem.data = ptr <;> simp_all [List.count_cons] <;> omega

/-- The ids that `queue_remove` takes out: the given one, if it is queued. -/
def idsRemoved (q : Queue δ) (itemid : ℕ) : List ℕ :=
  if q.list.any (·.id == itemid) then [itemid] else []

/-- `queue_remove` splits the list into what stays and what it takes out. -/
theorem queued_remove (q : Queue δ) (itemid id : ℕ) :
    (q.remove itemid).1.queued id + (q.idsRemoved itemid).count id = q.queued id := by
  unfold queued idsRemoved remove
  by_cases hany : q.list.any (·.id == itemid) = true
  · rw [if_pos hany, if_pos hany]
    cases hfind : q.list.find? (·.id == itemid) with
    | none =>
      obtain ⟨item, hmem, hid⟩ := List.any_eq_true.mp hany
      exact absurd hid (List.find?_eq_none.mp hfind item hmem)
    | some item =>
      have := (idCount_eraseP hfind id).2
      simpa only [List.count_singleton, beq_iff_eq] using this
  · rw [if_neg hany, if_neg hany]
    simp

end Queue

/-- A queue, the calls of `queue_return_item` in progress on it, and what has
happened to the items so far. -/
structure QueueSystem (δ : Type*) where
  /-- The queue itself. -/
  queue : Queue δ
  /-- Fetched items whose return has not begun. -/
  fetched : List (QueueItem δ)
  /-- Items of unfinished returns, between the first section and `queue_add`. -/
  returning : List (QueueItem δ)
  /-- The ids of the items that have been added. -/
  added : List ℕ
  /-- The ids of the items that have been removed or returned as finished. -/
  gone : List ℕ
  deriving DecidableEq

/-- One section under the mutex, or the unlocked write to `item->blocked`. -/
inductive QueueAction (δ : Type*) where
  /-- `queue_add` of a new item. -/
  | add (item : QueueItem δ)
  /-- `queue_fetchone`, past its wait. -/
  | fetchone
  /-- A worker marks the item it holds as blocked. -/
  | block (id : ℕ)
  /-- The first section of `queue_return_item`. -/
  | returnFirst (id : ℕ) (finished : Bool)
  /-- The `queue_add` inside an unfinished `queue_return_item`. -/
  | returnAdd (id : ℕ)
  /-- The last section of `queue_return_item`, which only wakes the waiters. -/
  | returnLast
  /-- `queue_remove`. -/
  | remove (id : ℕ)
  /-- `queue_remove_byptr`. -/
  | removeByptr (ptr : δ)
  deriving DecidableEq

/-- The effect of one section. -/
def queueStep [DecidableEq δ] (s : QueueSystem δ) : QueueAction δ → Option (QueueSystem δ)
  | .add item =>
    if item.id ∈ s.added then none
    else some { s with queue := s.queue.add item, added := item.id :: s.added }
  | .fetchone =>
    match s.queue.fetchone with
    | (q, some item) => some { s with queue := q, fetched := item :: s.fetched }
    | (q, none) => some { s with queue := q }
  | .block id =>
    some { s with fetched := s.fetched.map fun item =>
      if item.id = id then { item with blocked := true } else item }
  | .returnFirst id finished =>
    match s.fetched.find? (·.id == id) with
    | none => none
    | some item =>
      let t := { s with queue := s.queue.pendingRemove id
                        fetched := s.fetched.eraseP (·.id == id) }
      if finished then some { t with gone := id :: s.gone }
      else some { t with returning := item :: s.returning }
  | .returnAdd id =>
    match s.returning.find? (·.id == id) with
    | none => none
    | some item =>
      some { s with queue := s.queue.add item, returning := s.returning.eraseP (·.id == id) }
  | .returnLast => some s
  | .remove id =>
    some { s with queue := (s.queue.remove id).1, gone := s.queue.idsRemoved id ++ s.gone }
  | .removeByptr ptr =>
    some { s with queue := (s.queue.removeByptr ptr).1, gone := s.queue.idsByptr ptr ++ s.gone }

/-- The threads on a queue fresh from `queue_new`. -/
def queueMachine (δ : Type*) [DecidableEq δ] : Lib.Machine (QueueSystem δ) (QueueAction δ) where
  init := ⟨Queue.new, [], [], [], []⟩
  step := queueStep

/-- Every item that has been added and neither removed nor returned as finished
is in exactly one place: once in the list, or behind exactly one token. -/
def ItemsVisible (s : QueueSystem δ) : Prop :=
  ∀ id ∈ s.added, id ∉ s.gone → s.queue.queued id + s.queue.tokens id = 1

/-- The accounting of a run: ids are added once, each added id is in the list, in
some hands or gone, and the tokens are those of the fetched items. -/
structure QueueSystem.Accounts (s : QueueSystem δ) : Prop where
  /-- No id is added twice. -/
  nodup : s.added.Nodup
  /-- An added id is queued, fetched, being returned, or gone. -/
  places : ∀ id, s.queue.queued id + idCount s.fetched id + idCount s.returning id +
    s.gone.count id = s.added.count id
  /-- The tokens of an id are as many as the fetched items with it. -/
  tokens : ∀ id, s.queue.tokens id = idCount s.fetched id

namespace QueueSystem.Accounts

variable {s t : QueueSystem δ}

/-- An id has at most one place. -/
theorem places_le_one (h : s.Accounts) (id : ℕ) :
    s.queue.queued id + idCount s.fetched id + idCount s.returning id + s.gone.count id ≤ 1 := by
  rw [h.places id]
  exact List.nodup_iff_count_le_one.mp h.nodup id

/-- Marking an item leaves the ids of the fetched items. -/
theorem ids_block (fetched : List (QueueItem δ)) (itemid : ℕ) :
    (fetched.map fun item =>
      if item.id = itemid then { item with blocked := true } else item).map (·.id) =
        fetched.map (·.id) := by
  rw [List.map_map]
  refine List.map_congr_left fun item _ => ?_
  simp only [Function.comp_apply]
  split <;> rfl

/-- A fetched item that is returned takes its token along. -/
theorem tokens_returnFirst (h : s.Accounts) {itemid : ℕ} {item : QueueItem δ}
    (hfind : s.fetched.find? (·.id == itemid) = some item) (id : ℕ) :
    (s.queue.pendingRemove itemid).tokens id =
      idCount (s.fetched.eraseP (·.id == itemid)) id := by
  have hplaces := h.places_le_one id
  have hcount := h.tokens id
  have hfound := (idCount_eraseP hfind id).2
  rw [Queue.tokens_pendingRemove]
  by_cases hid : id = itemid
  · rw [if_pos hid.symm] at hfound
    rw [if_pos hid]
    omega
  · rw [if_neg (Ne.symm hid)] at hfound
    rw [if_neg hid]
    omega

/-- Fetching an item moves it to the fetched ones, with a token. -/
theorem fetchone (h : s.Accounts) {q : Queue δ} {item : QueueItem δ}
    (hfetch : s.queue.fetchone = (q, some item)) :
    QueueSystem.Accounts { s with queue := q, fetched := item :: s.fetched } := by
  rcases s.queue.fetchone_counts with hnone | ⟨found, hfound, hcounts⟩
  · simp [hfetch] at hnone
  · rw [hfetch] at hfound hcounts
    obtain rfl : item = found := Option.some.inj hfound
    refine ⟨h.nodup, fun id => ?_, fun id => ?_⟩
    · have := h.places id
      have := (hcounts id).1
      simp only [idCount, List.map_cons, List.count_cons, beq_iff_eq] at *
      omega
    · have := h.tokens id
      have := (hcounts id).2
      simp only [idCount, List.map_cons, List.count_cons, beq_iff_eq] at *
      omega

/-- Marking an item moves nothing. -/
theorem block (h : s.Accounts) (itemid : ℕ) : QueueSystem.Accounts { s with
    fetched := s.fetched.map fun item =>
      if item.id = itemid then { item with blocked := true } else item } := by
  have hids := ids_block s.fetched itemid
  refine ⟨h.nodup, fun id => ?_, fun id => ?_⟩
  · simpa only [idCount, hids] using h.places id
  · simpa only [idCount, hids] using h.tokens id

/-- The first section of returning a finished item: it is gone. -/
theorem returnFinished (h : s.Accounts) {itemid : ℕ} {item : QueueItem δ}
    (hfind : s.fetched.find? (·.id == itemid) = some item) :
    QueueSystem.Accounts { s with
      queue := s.queue.pendingRemove itemid
      fetched := s.fetched.eraseP (·.id == itemid)
      gone := itemid :: s.gone } := by
  refine ⟨h.nodup, fun id => ?_, h.tokens_returnFirst hfind⟩
  have := h.places id
  have := (idCount_eraseP hfind id).2
  simp only [Queue.queued_pendingRemove, List.count_cons, beq_iff_eq] at *
  omega

/-- The first section of returning an item that is not finished: it is in the hands of the
thread. -/
theorem returnFirst (h : s.Accounts) {itemid : ℕ} {item : QueueItem δ}
    (hfind : s.fetched.find? (·.id == itemid) = some item) :
    QueueSystem.Accounts { s with
      queue := s.queue.pendingRemove itemid
      fetched := s.fetched.eraseP (·.id == itemid)
      returning := item :: s.returning } := by
  refine ⟨h.nodup, fun id => ?_, h.tokens_returnFirst hfind⟩
  have := h.places id
  have hitem := idCount_eraseP hfind id
  simp only [Queue.queued_pendingRemove, idCount, List.map_cons, List.count_cons,
    beq_iff_eq] at *
  rw [hitem.1]
  omega

/-- The second section of returning an item: it is in the list again. -/
theorem returnAdd (h : s.Accounts) {itemid : ℕ} {item : QueueItem δ}
    (hfind : s.returning.find? (·.id == itemid) = some item) :
    QueueSystem.Accounts { s with
      queue := s.queue.add item
      returning := s.returning.eraseP (·.id == itemid) } := by
  refine ⟨h.nodup, fun id => ?_, h.tokens⟩
  have := h.places id
  have hitem := idCount_eraseP hfind id
  simp only [Queue.queued_add]
  rw [hitem.1]
  omega

/-- Removing items from the list leaves the tokens. -/
theorem remove (h : s.Accounts) (itemid : ℕ) : QueueSystem.Accounts { s with
    queue := (s.queue.remove itemid).1
    gone := s.queue.idsRemoved itemid ++ s.gone } := by
  refine ⟨h.nodup, fun id => ?_, fun id => ?_⟩
  · have := h.places id
    have := s.queue.queued_remove itemid id
    simp only [List.count_append]
    omega
  · have htokens : (s.queue.remove itemid).1.tokens id = s.queue.tokens id := by
      unfold Queue.remove
      split <;> rfl
    rw [htokens]
    exact h.tokens id

/-- Every section keeps the accounting. -/
theorem step [DecidableEq δ] (h : s.Accounts) {a : QueueAction δ} (hstep : queueStep s a = some t) :
    t.Accounts := by
  cases a with
  | add item =>
    simp only [queueStep, Option.ite_none_left_eq_some, Option.some.injEq] at hstep
    obtain ⟨hnew, rfl⟩ := hstep
    refine ⟨List.nodup_cons.mpr ⟨hnew, h.nodup⟩, fun id => ?_, h.tokens⟩
    have := h.places id
    simp only [Queue.queued_add, List.count_cons, beq_iff_eq]
    omega
  | fetchone =>
    rcases hfetch : s.queue.fetchone with ⟨q, found⟩
    cases found with
    | none =>
      rcases s.queue.fetchone_counts with hnone | ⟨item, hitem, _⟩
      · simp only [queueStep, hnone, Option.some.injEq] at hstep
        obtain rfl := hstep
        exact h
      · simp [hfetch] at hitem
    | some item =>
      simp only [queueStep, hfetch, Option.some.injEq] at hstep
      obtain rfl := hstep
      exact h.fetchone hfetch
  | block id =>
    obtain rfl := Option.some.inj hstep
    exact h.block id
  | returnFirst itemid finished =>
    cases hfind : s.fetched.find? (·.id == itemid) with
    | none => simp [queueStep, hfind] at hstep
    | some item =>
      cases finished with
      | true =>
        simp only [queueStep, hfind, if_true, Option.some.injEq] at hstep
        obtain rfl := hstep
        exact h.returnFinished hfind
      | false =>
        simp only [queueStep, hfind, Bool.false_eq_true, if_false, Option.some.injEq] at hstep
        obtain rfl := hstep
        exact h.returnFirst hfind
  | returnAdd itemid =>
    cases hfind : s.returning.find? (·.id == itemid) with
    | none => simp [queueStep, hfind] at hstep
    | some item =>
      simp only [queueStep, hfind, Option.some.injEq] at hstep
      obtain rfl := hstep
      exact h.returnAdd hfind
  | returnLast =>
    obtain rfl := Option.some.inj hstep
    exact h
  | remove itemid =>
    obtain rfl := Option.some.inj hstep
    exact h.remove itemid
  | removeByptr ptr =>
    obtain rfl := Option.some.inj hstep
    refine ⟨h.nodup, fun id => ?_, h.tokens⟩
    have := h.places id
    have := s.queue.queued_removeByptr ptr id
    simp only [List.count_append]
    omega

/-- The accounting holds before the first section. -/
theorem init [DecidableEq δ] : (queueMachine δ).init.Accounts :=
  ⟨List.nodup_nil, fun _ => rfl, fun _ => rfl⟩

/-- With no unfinished return between its sections, every unfinished item is visible. -/
theorem itemsVisible (h : s.Accounts) (hreturning : s.returning = []) : ItemsVisible s := by
  intro id hadded hgone
  have hplaces := h.places id
  have htokens := h.tokens id
  have hone : s.added.count id = 1 := List.count_eq_one_of_mem h.nodup hadded
  have hzero : s.gone.count id = 0 := List.count_eq_zero.mpr hgone
  rw [hreturning] at hplaces
  simp only [idCount, List.map_nil, List.count_nil] at *
  omega

/-- An item in the gap of an unfinished return is in no place. -/
theorem not_itemsVisible (h : s.Accounts) {item : QueueItem δ} (hitem : item ∈ s.returning) :
    ¬ItemsVisible s := by
  intro hvisible
  have hpos : 0 < idCount s.returning item.id :=
    List.count_pos_iff.mpr (List.mem_map.mpr ⟨item, hitem, rfl⟩)
  have hplaces := h.places item.id
  have hle := h.places_le_one item.id
  have htokens := h.tokens item.id
  have hadded : item.id ∈ s.added := List.count_pos_iff.mp (by omega)
  have hgone : item.id ∉ s.gone := List.count_eq_zero.mp (by omega)
  have := hvisible item.id hadded hgone
  omega

end QueueSystem.Accounts

/-- The first section of a `queue_return_item` whose item is not finished. -/
def QueueAction.beginsUnfinishedReturn : QueueAction δ → Bool
  | .returnFirst _ false => true
  | _ => false

/-- Only an unfinished return puts an item into the gap between its sections. -/
theorem queueStep_returning_nil [DecidableEq δ] {s t : QueueSystem δ} {a : QueueAction δ}
    (ha : a.beginsUnfinishedReturn = false) (hstep : queueStep s a = some t)
    (hs : s.returning = []) : t.returning = [] := by
  cases a with
  | add item =>
    simp only [queueStep, Option.ite_none_left_eq_some, Option.some.injEq] at hstep
    obtain ⟨_, rfl⟩ := hstep
    exact hs
  | fetchone =>
    simp only [queueStep] at hstep
    split at hstep <;> obtain rfl := Option.some.inj hstep <;> exact hs
  | returnFirst itemid finished =>
    cases finished with
    | false => simp [QueueAction.beginsUnfinishedReturn] at ha
    | true =>
      simp only [queueStep] at hstep
      split at hstep
      · simp at hstep
      · obtain rfl := Option.some.inj hstep
        exact hs
  | returnAdd itemid =>
    simp [queueStep, hs] at hstep
  | block | returnLast | remove | removeByptr =>
    obtain rfl := Option.some.inj hstep
    exact hs

/-- The first section of an unfinished return leaves its item in the gap. -/
theorem mem_returning_of_begins [DecidableEq δ] {s t : QueueSystem δ} {a : QueueAction δ}
    (ha : a.beginsUnfinishedReturn = true) (hstep : queueStep s a = some t) :
    ∃ item, item ∈ t.returning := by
  match a, ha with
  | .returnFirst itemid false, _ =>
    simp only [queueStep, Bool.false_eq_true, if_false] at hstep
    split at hstep
    · simp at hstep
    · rename_i item _
      obtain rfl := Option.some.inj hstep
      exact ⟨item, by simp⟩

/-- **Visibility of queue items.** Along a run every unfinished item is in exactly
one place whenever the mutex is free, if and only if the run has no unfinished
return past its first section. -/
theorem itemsVisible_along_run_iff [DecidableEq δ] {as : List (QueueAction δ)} {s : QueueSystem δ}
    (hrun : (queueMachine δ).run as = some s) :
    (∀ bs, bs <+: as → ∀ t, (queueMachine δ).run bs = some t → ItemsVisible t) ↔
      ∀ a ∈ as, a.beginsUnfinishedReturn = false := by
  constructor
  · intro hvisible a hmem
    by_contra hbegins
    obtain ⟨before, after, rfl⟩ := List.append_of_mem hmem
    have hpre : before ++ [a] <+: before ++ a :: after := ⟨after, by simp⟩
    obtain ⟨t, ht⟩ := (queueMachine δ).runFrom_initial hrun hpre
    have haccounts : t.Accounts :=
      (queueMachine δ).invariant_of_step (fun _ _ _ h hs => h.step hs) .init ht
    obtain ⟨u, _, hlast⟩ := (queueMachine δ).runFrom_append.mp ht
    obtain ⟨t', hstep, ht'⟩ := (queueMachine δ).runFrom_cons.mp hlast
    obtain rfl : t' = t := by simpa using ht'
    obtain ⟨item, hitem⟩ := mem_returning_of_begins (by simpa using hbegins) hstep
    exact haccounts.not_itemsVisible hitem (hvisible _ hpre _ ht)
  · intro hgood bs hbs t ht
    have hmeets : (queueMachine δ).Meets (fun _ a => a.beginsUnfinishedReturn = false)
        (queueMachine δ).init bs :=
      (queueMachine δ).meets_of_forall_mem _ fun a ha => hgood a (hbs.subset ha)
    have hinv : t.Accounts ∧ t.returning = [] :=
      (queueMachine δ).invariant _ (fun t => t.Accounts ∧ t.returning = [])
        (fun _ _ _ h ha hs => ⟨h.1.step hs, queueStep_returning_nil ha hs h.2⟩)
        ⟨.init, rfl⟩ hmeets ht
    exact hinv.1.itemsVisible hinv.2

/-- An item that is added, fetched, returned as finished and followed by another
addition leaves every unfinished item visible. -/
theorem itemsVisible_after_finished_return :
    ItemsVisible (⟨⟨[⟨2, false, ()⟩], 1, []⟩, [], [], [2, 1], [1]⟩ : QueueSystem Unit) :=
  have hrun : (queueMachine Unit).run [.add ⟨1, false, ()⟩, .fetchone, .returnFirst 1 true,
      .returnLast, .add ⟨2, false, ()⟩] =
        some ⟨⟨[⟨2, false, ()⟩], 1, []⟩, [], [], [2, 1], [1]⟩ := by decide
  (itemsVisible_along_run_iff hrun).mpr (by decide) _ List.prefix_rfl _ hrun

/-- A worker returning a blocked item leaves it in no place after the first
section of `queue_return_item`, while the mutex is free. -/
theorem item_invisible_during_return :
    ∃ s, (queueMachine Unit).run [.add ⟨1, false, ()⟩, .fetchone, .block 1,
      .returnFirst 1 false] = some s ∧ ¬ItemsVisible s := by
  refine ⟨_, rfl, fun h => ?_⟩
  have := h 1 (by decide) (by decide)
  revert this
  decide

end Khttp
