import Mathlib.Data.List.Basic
import Mathlib.Tactic.Common

/-!
# The work queue of a thread pool

`queue.c` keeps the queued items and, beside them, one token for each item that a
worker has fetched and not yet returned. Every function here is the section
between `QUEUE_LOCK` and `QUEUE_UNLOCK` of the function it is named after;
`queue_return_item` has three such sections, each with its own definition.
-/

namespace Khttp

/-- `queue_item`: one entry of a queue. The links are the list it stands in; the
tag is written for logging only and no function of the queue reads it. -/
structure QueueItem (δ : Type*) where
  /-- Drawn from the counter of `queue_item_new`, hence unique. -/
  id : ℕ
  /-- Workers skip blocked items. -/
  blocked : Bool
  /-- The pointer the item carries. -/
  data : δ
  deriving DecidableEq, Repr

/-- `queue_pending_item`: the token of a fetched item. -/
structure QueuePendingItem (δ : Type*) where
  /-- The id of the fetched item. -/
  qid : ℕ
  /-- The pointer the fetched item carries. -/
  data : δ
  deriving DecidableEq, Repr

/-- `queue`, without its mutex and condition variables. -/
structure Queue (δ : Type*) where
  /-- The queued items in the order of their addition. -/
  list : List (QueueItem δ)
  /-- The number of queued items, counted by hand. -/
  count : ℕ
  /-- The tokens of the fetched items. -/
  processing : List (QueuePendingItem δ)
  deriving DecidableEq, Repr

namespace Queue

variable {δ : Type*}

/-- `queue_new`. -/
def new : Queue δ := ⟨[], 0, []⟩

/-- `queue_add`: `DL_APPEND`, then the count. -/
def add (q : Queue δ) (item : QueueItem δ) : Queue δ :=
  { q with list := q.list ++ [item], count := q.count + 1 }

/-- `queue_remove`: the item itself, which its id stands for, leaves the list.
The result is the number of items taken out. -/
def remove (q : Queue δ) (id : ℕ) : Queue δ × ℕ :=
  if q.list.any (·.id == id) then
    ({ q with list := q.list.eraseP (·.id == id), count := q.count - 1 }, 1)
  else (q, 0)

/-- `queue_remove_byptr`: every item carrying the pointer leaves the list. The
result is the number of items taken out. -/
def removeByptr [DecidableEq δ] (q : Queue δ) (ptr : δ) : Queue δ × ℕ :=
  let result := q.list.countP (·.data = ptr)
  ({ q with list := q.list.filter (·.data ≠ ptr), count := q.count - result }, result)

/-- The test of `queue_fetchone` for waiting on `q->cond` before it looks at the list. -/
def fetchoneWaits (q : Queue δ) (blocking : Bool) : Bool :=
  q.count == 0 && blocking

/-- `queue_fetchone` past its wait: the first unblocked item moves from the list
to a token at the end of `processing`. -/
def fetchone (q : Queue δ) : Queue δ × Option (QueueItem δ) :=
  if 0 < q.count then
    match q.list.find? (!·.blocked) with
    | some item =>
      ({ list := q.list.eraseP (!·.blocked)
         count := q.count - 1
         processing := q.processing ++ [⟨item.id, item.data⟩] }, some item)
    | none => (q, none)
  else (q, none)

/-- `queue_unblock_byptr`: the items carrying the pointer become unblocked. The
result is the number of items carrying it. -/
def unblockByptr [DecidableEq δ] (q : Queue δ) (ptr : δ) : Queue δ × ℕ :=
  ({ q with list := q.list.map fun elem =>
      if elem.data = ptr then { elem with blocked := false } else elem },
    q.list.countP (·.data = ptr))

/-- The scan of `queue_unblock`, which stops at the first item with the id. -/
def unblockScan (itemid : ℕ) : List (QueueItem δ) → List (QueueItem δ)
  | [] => []
  | elem :: rest =>
    if elem.id = itemid then { elem with blocked := false } :: rest
    else elem :: unblockScan itemid rest

/-- `queue_unblock`: the item with the id becomes unblocked. -/
def unblock (q : Queue δ) (itemid : ℕ) : Queue δ :=
  { q with list := unblockScan itemid q.list }

/-- `queue_clear`: the tokens go. It has no result where an item is queued: `DL_DELETE`
reads the links of the item, which has been freed by then. -/
def clear (q : Queue δ) : Option (Queue δ) :=
  match q.list with
  | [] => some { q with processing := [] }
  | _ :: _ => none

/-- `QUEUE_PENDING_REMOVE`, the first section of `queue_return_item`. -/
def pendingRemove (q : Queue δ) (itemid : ℕ) : Queue δ :=
  { q with processing := q.processing.filter (·.qid ≠ itemid) }

/-- `queue_return_item`, its sections together: the tokens of the item are dropped, and
an unfinished item is added again. -/
def returnItem (q : Queue δ) (item : QueueItem δ) (finished : Bool) : Queue δ :=
  if finished then q.pendingRemove item.id else (q.pendingRemove item.id).add item

/-- The scan of `queue_pending_waitptr`: the id of the first token carrying the
pointer, if there is one. -/
def pendingByptr [DecidableEq δ] (q : Queue δ) (ptr : δ) : Option ℕ :=
  (q.processing.find? (·.data = ptr)).map (·.qid)

@[simp] theorem add_list (q : Queue δ) (item : QueueItem δ) :
    (q.add item).list = q.list ++ [item] := rfl

@[simp] theorem add_processing (q : Queue δ) (item : QueueItem δ) :
    (q.add item).processing = q.processing := rfl

@[simp] theorem pendingRemove_list (q : Queue δ) (itemid : ℕ) :
    (q.pendingRemove itemid).list = q.list := rfl

@[simp] theorem pendingRemove_processing (q : Queue δ) (itemid : ℕ) :
    (q.pendingRemove itemid).processing = q.processing.filter (·.qid ≠ itemid) := rfl

/-- A fetch from a nonempty count takes the earliest unblocked item. -/
theorem fetchone_earliest {q : Queue δ} {before after : List (QueueItem δ)} {item : QueueItem δ}
    (hcount : 0 < q.count) (hlist : q.list = before ++ item :: after)
    (hbefore : ∀ earlier ∈ before, earlier.blocked = true) (hitem : item.blocked = false) :
    q.fetchone = ({ list := before ++ after
                    count := q.count - 1
                    processing := q.processing ++ [⟨item.id, item.data⟩] }, some item) := by
  have hskip : ∀ earlier ∈ before, ¬(!earlier.blocked) = true := by
    intro earlier hearlier
    simp [hbefore earlier hearlier]
  have hfind : q.list.find? (!·.blocked) = some item :=
    List.find?_eq_some_iff_append.mpr
      ⟨by simp [hitem], before, after, hlist, by simpa using hbefore⟩
  have herase : q.list.eraseP (!·.blocked) = before ++ after := by
    rw [hlist, List.eraseP_append_right _ hskip]
    simp [hitem]
  simp only [fetchone, if_pos hcount, hfind, herase]

/-- What a fetch can do: nothing, or move the first unblocked item to a token. -/
theorem fetchone_cases (q : Queue δ) :
    q.fetchone = (q, none) ∨
      ∃ before item after, q.list = before ++ item :: after ∧ item.blocked = false ∧
        q.fetchone = ({ list := before ++ after
                        count := q.count - 1
                        processing := q.processing ++ [⟨item.id, item.data⟩] }, some item) := by
  rcases Nat.eq_zero_or_pos q.count with hzero | hcount
  · exact Or.inl (by simp [fetchone, hzero])
  · cases hfind : q.list.find? (!·.blocked) with
    | none => exact Or.inl (by simp [fetchone, hfind])
    | some item =>
      obtain ⟨hitem, before, after, hlist, hbefore⟩ := List.find?_eq_some_iff_append.mp hfind
      have hblocked : item.blocked = false := by simpa using hitem
      exact Or.inr ⟨before, item, after, hlist, hblocked,
        fetchone_earliest hcount hlist (by simpa using hbefore) hblocked⟩

/-- What a removal can do: nothing, or take the first item with the id out. -/
theorem remove_cases (q : Queue δ) (id : ℕ) :
    ((∀ item ∈ q.list, item.id ≠ id) ∧ q.remove id = (q, 0)) ∨
      ∃ before item after, q.list = before ++ item :: after ∧ item.id = id ∧
        q.remove id = ({ q with list := before ++ after, count := q.count - 1 }, 1) := by
  unfold remove
  split
  · next hany =>
    right
    cases hfind : q.list.find? (·.id == id) with
    | none =>
      obtain ⟨item, hmem, hid⟩ := List.any_eq_true.mp hany
      exact absurd hid (List.find?_eq_none.mp hfind item hmem)
    | some item =>
      obtain ⟨hitem, before, after, hlist, hbefore⟩ := List.find?_eq_some_iff_append.mp hfind
      have hid : item.id = id := by simpa using hitem
      refine ⟨before, item, after, hlist, hid, ?_⟩
      have herase : q.list.eraseP (·.id == id) = before ++ after := by
        rw [hlist, List.eraseP_append_right _ (by simpa using hbefore)]
        simp [hid]
      rw [herase]
  · next hany =>
    left
    exact ⟨by simpa using hany, rfl⟩

/-- A removal by pointer shortens the list by what it returns. -/
theorem length_removeByptr [DecidableEq δ] (q : Queue δ) (ptr : δ) :
    q.list.length = (q.removeByptr ptr).1.list.length + (q.removeByptr ptr).2 := by
  have hsplit := List.length_eq_countP_add_countP (fun item : QueueItem δ => item.data = ptr)
    (l := q.list)
  rw [List.countP_eq_length_filter (p := fun item => decide ¬_)] at hsplit
  simpa [Nat.add_comm, removeByptr] using hsplit

/-- Only a queue without items can be cleared. -/
theorem clear_eq_some {q cleared : Queue δ} (h : q.clear = some cleared) :
    q.list = [] ∧ cleared = { q with processing := [] } := by
  unfold clear at h
  split at h
  · next hempty => exact ⟨hempty, (Option.some.inj h).symm⟩
  · simp at h

/-- The count is the length of the list. -/
def Counted (q : Queue δ) : Prop := q.count = q.list.length

/-- An addition is counted. -/
theorem Counted.add {q : Queue δ} (h : q.Counted) (item : QueueItem δ) : (q.add item).Counted := by
  simpa [Counted, Queue.add] using h

/-- A fetch is counted. -/
theorem Counted.fetchone {q : Queue δ} (h : q.Counted) : q.fetchone.1.Counted := by
  rcases q.fetchone_cases with heq | ⟨before, item, after, hlist, -, heq⟩
  · rwa [heq]
  · rw [Counted, hlist, List.length_append, List.length_cons] at h
    rw [heq, Counted, List.length_append]
    dsimp only
    omega

/-- A removal by pointer is counted. -/
theorem Counted.removeByptr [DecidableEq δ] {q : Queue δ} (h : q.Counted) (ptr : δ) :
    (q.removeByptr ptr).1.Counted := by
  have hlength := q.length_removeByptr ptr
  have hcount : (q.removeByptr ptr).1.count = q.count - (q.removeByptr ptr).2 := rfl
  rw [Counted] at h ⊢
  omega

/-- Unblocking takes nothing out. -/
theorem Counted.unblockByptr [DecidableEq δ] {q : Queue δ} (h : q.Counted) (ptr : δ) :
    (q.unblockByptr ptr).1.Counted := by
  simpa [Counted, Queue.unblockByptr] using h

end Queue

end Khttp
