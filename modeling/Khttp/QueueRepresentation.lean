import Khttp.Lib.EventLog
import Khttp.Lib.Machine
import Khttp.Queue

/-!
# What a queue holds

The list, the hand-kept count and the results of a queue, read against a log of
the calls made on it: an item is in the queue from its last addition until it is
fetched, removed or cleared. Every call is one step here; `queue_return_item` with
an unfinished item is its finished form followed by `queue_add`, so the states
between its sections are reached as well.
-/

namespace Khttp

open Lib

variable {δ : Type*}

/-- An item as the log knows it: who it is and the pointer it carries. -/
abbrev QueueItem.key (item : QueueItem δ) : ℕ × δ := (item.id, item.data)

/-- What leaves the list when an item with an id that stands once leaves it. -/
theorem filter_keys {before after : List (QueueItem δ)} {item : QueueItem δ}
    (hids : (before ++ item :: after).Pairwise (fun item item' => item.id ≠ item'.id)) :
    ((before ++ item :: after).map QueueItem.key).filter (fun key => !decide (key.1 = item.id)) =
      (before ++ after).map QueueItem.key := by
  obtain ⟨_, hafter, hbefore⟩ := List.pairwise_append.mp hids
  have hothers : ∀ key ∈ (before ++ after).map QueueItem.key,
      (!decide (key.1 = item.id)) = true := by
    intro key hkey
    obtain ⟨other, hother, rfl⟩ := List.mem_map.mp hkey
    rcases List.mem_append.mp hother with hmem | hmem
    · simpa [QueueItem.key] using hbefore other hmem item (by simp)
    · simpa [QueueItem.key] using ((List.pairwise_cons.mp hafter).1 other hmem).symm
  rw [List.map_append, List.map_cons, List.filter_append, List.filter_cons_of_neg (by simp),
    ← List.filter_append, ← List.map_append]
  exact List.filter_eq_self.mpr hothers

/-- `queue_unblock` changes no item's key. -/
theorem Queue.unblockScan_keys (id : ℕ) (items : List (QueueItem δ)) :
    (unblockScan id items).map QueueItem.key = items.map QueueItem.key := by
  induction items with
  | nil => simp [unblockScan]
  | cons item rest ih =>
    unfold unblockScan
    split
    · simp
    · simpa using ih

/-- What a call on a queue did to its items, with the result it returned. -/
inductive QueueEvent (δ : Type*) where
  /-- `queue_add`, also from inside `queue_return_item`. -/
  | added (item : QueueItem δ)
  /-- `queue_fetchone`. -/
  | fetched (item : Option (QueueItem δ))
  /-- `queue_remove`. -/
  | removed (id result : ℕ)
  /-- `queue_remove_byptr`. -/
  | removedByptr (ptr : δ) (result : ℕ)
  /-- `queue_clear`. -/
  | cleared
  deriving DecidableEq

namespace QueueEvent

/-- An addition opens the item's place in the queue. -/
def opens : QueueEvent δ → Option (ℕ × δ)
  | added item => some item.key
  | _ => none

/-- The event after which an item is no longer queued from before it. -/
def ends [DecidableEq δ] : QueueEvent δ → ℕ × δ → Bool
  | added item, key => key.1 = item.id
  | fetched (some item), key => key.1 = item.id
  | fetched none, _ => false
  | removed id _, key => key.1 = id
  | removedByptr ptr _, key => key.2 = ptr
  | cleared, _ => true

/-- A removal reports the number of entries it took out of the given ones. -/
def ReportsTaken [DecidableEq δ] (keys : List (ℕ × δ)) : QueueEvent δ → Prop
  | removed id result => result = keys.countP (·.1 = id)
  | removedByptr ptr result => result = keys.countP (·.2 = ptr)
  | _ => True

instance [DecidableEq δ] (keys : List (ℕ × δ)) : DecidablePred (ReportsTaken keys)
  | added _ | fetched _ | cleared => isTrue trivial
  | removed id result => inferInstanceAs (Decidable (result = keys.countP (·.1 = id)))
  | removedByptr ptr result => inferInstanceAs (Decidable (result = keys.countP (·.2 = ptr)))

end QueueEvent

/-- A queue with the log of the calls made on it. -/
structure QueueLog (δ : Type*) where
  /-- The queue itself. -/
  queue : Queue δ
  /-- The events so far, oldest first. -/
  history : List (QueueEvent δ)
  deriving DecidableEq

/-- One call on a queue. -/
inductive QueueCall (δ : Type*) where
  /-- `queue_add`. -/
  | add (item : QueueItem δ)
  /-- `queue_remove`. -/
  | remove (id : ℕ)
  /-- `queue_remove_byptr`. -/
  | removeByptr (ptr : δ)
  /-- `queue_fetchone`, non-blocking. -/
  | fetchone
  /-- `queue_unblock`. -/
  | unblock (id : ℕ)
  /-- `queue_unblock_byptr`. -/
  | unblockByptr (ptr : δ)
  /-- `queue_return_item`. -/
  | returnItem (item : QueueItem δ) (finished : Bool)
  /-- `queue_clear`. -/
  | clear
  deriving DecidableEq

namespace QueueLog

variable [DecidableEq δ]

/-- The items that the log says are queued. -/
def standing (history : List (QueueEvent δ)) : List (ℕ × δ) :=
  Lib.standing QueueEvent.opens QueueEvent.ends history

/-- Only an item that is not queued is added or returned. -/
def Proper (s : QueueLog δ) : QueueCall δ → Prop
  | .add item | .returnItem item _ => ∀ other ∈ s.queue.list, other.id ≠ item.id
  | _ => True

instance (s : QueueLog δ) : DecidablePred s.Proper
  | .add item | .returnItem item _ =>
    inferInstanceAs (Decidable (∀ other ∈ s.queue.list, other.id ≠ item.id))
  | .remove _ | .removeByptr _ | .fetchone | .unblock _ | .unblockByptr _ | .clear => isTrue trivial

/-- The effect of one call. -/
def call (s : QueueLog δ) : QueueCall δ → Option (QueueLog δ)
  | .add item =>
    if s.queue.list.any (·.id == item.id) then none
    else some ⟨s.queue.add item, s.history ++ [.added item]⟩
  | .remove id => some ⟨(s.queue.remove id).1, s.history ++ [.removed id (s.queue.remove id).2]⟩
  | .removeByptr ptr =>
    some ⟨(s.queue.removeByptr ptr).1, s.history ++ [.removedByptr ptr (s.queue.removeByptr ptr).2]⟩
  | .fetchone => some ⟨s.queue.fetchone.1, s.history ++ [.fetched s.queue.fetchone.2]⟩
  | .unblock id => some { s with queue := s.queue.unblock id }
  | .unblockByptr ptr => some { s with queue := (s.queue.unblockByptr ptr).1 }
  | .returnItem item finished =>
    if s.queue.list.any (·.id == item.id) then none
    else some ⟨s.queue.returnItem item finished,
      s.history ++ if finished then [] else [.added item]⟩
  | .clear => s.queue.clear.map (⟨·, s.history ++ [.cleared]⟩)

/-- The calls on a queue, from `queue_new` on. -/
def machine (δ : Type*) [DecidableEq δ] : Machine (QueueLog δ) (QueueCall δ) where
  init := ⟨Queue.new, []⟩
  step := call

/-- The queue is what the log says: the count is the length of the list, the list holds
the standing items in the order of their addition, and every removal reported the
number of entries it took out. -/
structure Represented (s : QueueLog δ) : Prop where
  /-- `q->count` is the length of `q->list`. -/
  count_eq : s.queue.count = s.queue.list.length
  /-- `q->list` holds the standing items. -/
  list_eq : s.queue.list.map QueueItem.key = standing s.history
  /-- The removals counted what they took out. -/
  taken : ∀ earlier event, earlier ++ [event] <+: s.history → event.ReportsTaken (standing earlier)

/-- One event more: what it ends leaves the list and what it opens comes last. -/
theorem standing_concat (history : List (QueueEvent δ)) (event : QueueEvent δ) :
    standing (history ++ [event]) =
      (standing history).filter (!event.ends ·) ++ event.opens.toList :=
  Lib.standing_concat _ _ history event

/-- Standing items have different ids. -/
theorem standing_ids (history : List (QueueEvent δ)) :
    (standing history).Pairwise (fun k k' => k.1 ≠ k'.1) := by
  apply Lib.standing_pairwise
  intro event k k' hopens hends
  cases event with
  | added item =>
    have hk' : item.key = k' := by simpa [QueueEvent.opens] using hopens
    have hid : k.1 ≠ item.id := by simpa [QueueEvent.ends] using hends
    subst hk'
    exact hid
  | _ => simp [QueueEvent.opens] at hopens

namespace Represented

variable {s : QueueLog δ}

/-- No two queued items have the same id. -/
theorem ids_pairwise (h : s.Represented) :
    s.queue.list.Pairwise (fun item item' => item.id ≠ item'.id) := by
  have hkeys := standing_ids s.history
  rwa [← h.list_eq, List.pairwise_map] at hkeys

/-- A call that logs an event keeps the queue represented if it changes the keys as the
event says, keeps the count right and reports what it took. -/
theorem logged (h : s.Represented) {q : Queue δ} {event : QueueEvent δ}
    (hcount : q.count = q.list.length)
    (hkeys : q.list.map QueueItem.key =
      (s.queue.list.map QueueItem.key).filter (!event.ends ·) ++ event.opens.toList)
    (htaken : event.ReportsTaken (s.queue.list.map QueueItem.key)) :
    Represented ⟨q, s.history ++ [event]⟩ := by
  refine ⟨hcount, ?_, fun earlier event' hprefix => ?_⟩
  · rw [standing_concat, ← h.list_eq]
    exact hkeys
  · rcases List.prefix_concat_iff.mp hprefix with heq | hearlier
    · obtain ⟨rfl, heq⟩ := List.append_inj' heq (by simp)
      obtain rfl : event' = event := by simpa using heq
      rwa [h.list_eq] at htaken
    · exact h.taken earlier event' hearlier

/-- A call that logs nothing keeps the queue represented if it keeps keys and count. -/
theorem unlogged (h : s.Represented) {q : Queue δ} (hcount : q.count = s.queue.count)
    (hkeys : q.list.map QueueItem.key = s.queue.list.map QueueItem.key) :
    Represented ⟨q, s.history⟩ := by
  refine ⟨?_, by rw [hkeys, h.list_eq], h.taken⟩
  have hlength := congrArg List.length hkeys
  simp only [List.length_map] at hlength
  rw [hcount, h.count_eq, hlength]

/-- `queue_add` of an item that is not queued. -/
theorem add (h : s.Represented) {item : QueueItem δ}
    (hnew : ∀ other ∈ s.queue.list, other.id ≠ item.id) :
    Represented ⟨s.queue.add item, s.history ++ [.added item]⟩ := by
  apply h.logged
  · simp [Queue.add, h.count_eq]
  · have hspared : ∀ key ∈ s.queue.list.map QueueItem.key,
        (!(QueueEvent.added item).ends key) = true := by
      intro key hkey
      obtain ⟨other, hother, rfl⟩ := List.mem_map.mp hkey
      simpa [QueueEvent.ends, QueueItem.key] using hnew other hother
    rw [List.filter_eq_self.mpr hspared]
    simp [QueueEvent.opens]
  · trivial

/-- A removal that took out what the event ends, and counted what left. -/
theorem removal (h : s.Represented) {list : List (QueueItem δ)} {event : QueueEvent δ}
    {result : ℕ} (hopens : event.opens = none)
    (hlist : list.map QueueItem.key =
      (s.queue.list.map QueueItem.key).filter (!event.ends ·))
    (hresult : s.queue.list.length = list.length + result)
    (htaken : (s.queue.list.map QueueItem.key).countP (event.ends ·) = result →
      event.ReportsTaken (s.queue.list.map QueueItem.key)) :
    Represented ⟨{ s.queue with list := list, count := s.queue.count - result },
      s.history ++ [event]⟩ := by
  apply h.logged
  · have hcount := h.count_eq
    dsimp only
    omega
  · simpa [hopens] using hlist
  · apply htaken
    have hsplit := List.length_eq_countP_add_countP (event.ends ·)
      (l := s.queue.list.map QueueItem.key)
    have hleft := congrArg List.length hlist
    rw [← List.countP_eq_length_filter] at hleft
    simp only [List.length_map, Bool.not_eq_true, Bool.decide_eq_false] at hsplit hleft
    omega

/-- `queue_remove`. -/
theorem remove (h : s.Represented) (id : ℕ) :
    Represented ⟨(s.queue.remove id).1, s.history ++ [.removed id (s.queue.remove id).2]⟩ := by
  rcases s.queue.remove_cases id with ⟨habsent, heq⟩ | ⟨before, item, after, hlist, rfl, heq⟩
  · rw [heq]
    refine h.removal rfl (Eq.symm (List.filter_eq_self.mpr ?_)) (Nat.add_zero _).symm ?_
    · intro key hkey
      obtain ⟨item, hitem, rfl⟩ := List.mem_map.mp hkey
      simpa [QueueEvent.ends, QueueItem.key] using habsent item hitem
    · exact fun hcount => hcount.symm
  · have hkeys := filter_keys (hlist ▸ h.ids_pairwise)
    rw [← hlist] at hkeys
    rw [heq]
    refine h.removal rfl hkeys.symm ?_ ?_
    · simp only [hlist, List.length_append, List.length_cons]
      omega
    · exact fun hcount => hcount.symm

/-- `queue_remove_byptr`. -/
theorem removeByptr (h : s.Represented) (ptr : δ) :
    Represented ⟨(s.queue.removeByptr ptr).1,
      s.history ++ [.removedByptr ptr (s.queue.removeByptr ptr).2]⟩ := by
  refine h.removal rfl ?_ ?_ ?_
  · rw [List.filter_map]
    congr 1
    apply List.filter_congr
    intro item _
    simp [QueueEvent.ends]
  · exact s.queue.length_removeByptr ptr
  · exact fun hcount => hcount.symm

/-- `queue_fetchone`. -/
theorem fetchone (h : s.Represented) :
    Represented ⟨s.queue.fetchone.1, s.history ++ [.fetched s.queue.fetchone.2]⟩ := by
  rcases s.queue.fetchone_cases with hnone | ⟨before, item, after, hlist, -, hsome⟩
  · rw [hnone]
    exact h.logged h.count_eq (by simp [QueueEvent.opens, QueueEvent.ends]) trivial
  · have hkeys := filter_keys (hlist ▸ h.ids_pairwise)
    rw [hsome]
    apply h.logged
    · simp only [h.count_eq, hlist, List.length_append, List.length_cons]
      omega
    · simpa [hlist, QueueEvent.opens, QueueEvent.ends] using hkeys.symm
    · trivial

/-- `queue_return_item` of an item that is not queued. -/
theorem returnItem (h : s.Represented) {item : QueueItem δ} {finished : Bool}
    (hnew : ∀ other ∈ s.queue.list, other.id ≠ item.id) :
    Represented ⟨s.queue.returnItem item finished,
      s.history ++ if finished then [] else [.added item]⟩ := by
  have hpending : Represented ⟨s.queue.pendingRemove item.id, s.history⟩ := h.unlogged rfl rfl
  cases finished with
  | true => simpa [Queue.returnItem] using hpending
  | false => exact hpending.add hnew

/-- `queue_clear` of a queue without items. -/
theorem clear (h : s.Represented) {q : Queue δ} (hq : s.queue.clear = some q) :
    Represented ⟨q, s.history ++ [.cleared]⟩ := by
  obtain ⟨hempty, rfl⟩ := Queue.clear_eq_some hq
  apply h.logged
  · exact h.count_eq
  · simp [hempty, QueueEvent.opens, QueueEvent.ends]
  · trivial

end Represented

/-- Every call that has a result keeps the queue represented. -/
theorem call_represented {s t : QueueLog δ} {c : QueueCall δ} (h : s.Represented)
    (hcall : s.call c = some t) : t.Represented := by
  cases c with
  | clear =>
    obtain ⟨q, hq, rfl⟩ := Option.map_eq_some_iff.mp hcall
    exact h.clear hq
  | add item =>
    simp only [call, Option.ite_none_left_eq_some, List.any_eq_true, not_exists, beq_iff_eq,
      not_and, Option.some.injEq] at hcall
    obtain ⟨hnew, rfl⟩ := hcall
    exact h.add hnew
  | returnItem item finished =>
    simp only [call, Option.ite_none_left_eq_some, List.any_eq_true, not_exists, beq_iff_eq,
      not_and, Option.some.injEq] at hcall
    obtain ⟨hnew, rfl⟩ := hcall
    exact h.returnItem hnew
  | remove id =>
    obtain rfl := Option.some.inj hcall
    exact h.remove id
  | removeByptr ptr =>
    obtain rfl := Option.some.inj hcall
    exact h.removeByptr ptr
  | fetchone =>
    obtain rfl := Option.some.inj hcall
    exact h.fetchone
  | unblock id =>
    obtain rfl := Option.some.inj hcall
    exact h.unlogged rfl (Queue.unblockScan_keys id _)
  | unblockByptr ptr =>
    obtain rfl := Option.some.inj hcall
    have hkeys : (s.queue.unblockByptr ptr).1.list.map QueueItem.key =
        s.queue.list.map QueueItem.key := by
      simp only [Queue.unblockByptr, List.map_map]
      apply List.map_congr_left
      intro item _
      simp only [Function.comp_apply]
      split <;> rfl
    exact h.unlogged rfl hkeys

/-- A proper call has a result, unless it clears a queue that holds items. -/
theorem exists_call_iff {s : QueueLog δ} {c : QueueCall δ} (hproper : s.Proper c) :
    (∃ t, s.call c = some t) ↔ (c = .clear → s.queue.list = []) := by
  cases c with
  | clear =>
    simp only [call, Queue.clear, true_implies]
    cases s.queue.list with
    | nil => simp
    | cons item rest => simp
  | add item | returnItem item =>
    have hnew : ¬s.queue.list.any (·.id == item.id) = true := by simpa [Proper] using hproper
    simp [call, hnew]
  | remove | removeByptr | fetchone | unblock | unblockByptr => simp [call]

/-- A new queue is what the empty log says. -/
theorem represented_init : (machine δ).init.Represented :=
  ⟨rfl, rfl, fun _ _ hprefix => by simpa using List.prefix_nil.mp hprefix⟩

/-- Every call of a sequence has a result, and the queue is what the log says behind it, if and
only if no call clears a queue that holds items: `queue_clear` frees an item and then unlinks it. -/
theorem represented_iff_clears_empty {calls : List (QueueCall δ)}
    (hproper : (machine δ).Meets Proper (machine δ).init calls) :
    (∀ done, done <+: calls → ∃ u, (machine δ).run done = some u ∧ u.Represented) ↔
      (machine δ).Meets (fun s c => c = .clear → s.queue.list = []) (machine δ).init calls :=
  (machine δ).runs_iff (fun _ _ _ h hcall => call_represented h hcall)
    (fun _ _ _ hproper => exists_call_iff hproper) represented_init hproper

/-- An item is added, fetched, returned unfinished, removed by its pointer and the empty
queue cleared; in the end the queue is what the log says. -/
theorem represented_iff_clears_empty_life :
    ∃ u, (machine ℕ).run [.add ⟨1, false, 7⟩, .fetchone, .returnItem ⟨1, true, 7⟩ false,
      .removeByptr 7, .clear] = some u ∧ u.Represented :=
  (represented_iff_clears_empty (by decide)).mpr (by decide) _ List.prefix_rfl

/-- A queue holding one item is cleared: the item is freed and then unlinked. -/
theorem clear_frees_early : ¬∀ calls : List (QueueCall ℕ),
    (machine ℕ).Meets Proper (machine ℕ).init calls →
      ∀ done, done <+: calls → ∃ u, (machine ℕ).run done = some u ∧ u.Represented := by
  intro hall
  obtain ⟨u, hu, -⟩ := hall [.add ⟨1, false, 7⟩, .clear] (by decide) _ List.prefix_rfl
  have hnone : (machine ℕ).run [.add ⟨1, false, 7⟩, .clear] = none := by decide
  simp [hnone] at hu

end QueueLog

namespace Queue

/-- What a blocking fetch owes its caller: the earliest unblocked item becomes one token
and nothing else changes; it waits exactly when no item is unblocked. -/
def FetchDiscipline (q : Queue δ) : Prop :=
  (∀ before item after, q.list = before ++ item :: after →
    (∀ earlier ∈ before, earlier.blocked = true) → item.blocked = false →
    q.fetchone = ({ list := before ++ after
                    count := q.count - 1
                    processing := q.processing ++ [⟨item.id, item.data⟩] }, some item)) ∧
  (q.fetchoneWaits true = true ↔ ∀ item ∈ q.list, item.blocked = true)

/-- Where the count is right, the discipline fails exactly on a positive count with nothing
unblocked to fetch. -/
theorem fetchDiscipline_iff {q : Queue δ} (hcounted : q.Counted) :
    q.FetchDiscipline ↔ q.count = 0 ∨ ∃ item ∈ q.list, item.blocked = false := by
  have hfetch : ∀ before item after, q.list = before ++ item :: after → 0 < q.count := by
    intro before item after hlist
    rw [Counted, hlist, List.length_append, List.length_cons] at hcounted
    omega
  have hearliest := fun before item after hlist hbefore hitem =>
    fetchone_earliest (hfetch before item after hlist) hlist hbefore hitem
  have hwaits : q.fetchoneWaits true = true ↔ q.count = 0 := by simp [fetchoneWaits]
  rw [FetchDiscipline, hwaits]
  constructor
  · rintro ⟨-, hwait⟩
    by_cases hzero : q.count = 0
    · exact Or.inl hzero
    · right
      simpa using mt hwait.mpr hzero
  · rintro (hzero | ⟨item, hitem, hblocked⟩)
    · have hempty : q.list = [] := List.eq_nil_of_length_eq_zero (hcounted.symm.trans hzero)
      exact ⟨hearliest, fun _ => by simp [hempty], fun _ => hzero⟩
    · have hpos := List.length_pos_of_mem hitem
      refine ⟨hearliest, fun hzero => ?_, fun hall => ?_⟩
      · rw [Counted] at hcounted
        omega
      · simp [hall item hitem] at hblocked

end Queue

namespace QueueLog

variable [DecidableEq δ]

/-- In every state of every run a blocking fetch keeps its discipline if and only if
the count is zero or some queued item is unblocked: `queue_fetchone` waits on the
count alone, and returns NULL at once from a queue of blocked items. -/
theorem fetchDiscipline_iff_unblocked {calls : List (QueueCall δ)} {t : QueueLog δ}
    (hrun : (machine δ).run calls = some t) :
    t.queue.FetchDiscipline ↔ t.queue.count = 0 ∨ ∃ item ∈ t.queue.list, item.blocked = false := by
  have hrepresented : t.Represented := (machine δ).invariant_of_step
    (fun _ _ _ h hcall => call_represented h hcall) represented_init hrun
  exact Queue.fetchDiscipline_iff hrepresented.count_eq

/-- A blocked item stands before an unblocked one. -/
theorem fetchDiscipline_iff_unblocked_second :
    (⟨[⟨1, true, 7⟩, ⟨2, false, 8⟩], 2, []⟩ : Queue ℕ).FetchDiscipline :=
  (@fetchDiscipline_iff_unblocked ℕ _ [.add ⟨1, true, 7⟩, .add ⟨2, false, 8⟩]
    ⟨⟨[⟨1, true, 7⟩, ⟨2, false, 8⟩], 2, []⟩, [.added ⟨1, true, 7⟩, .added ⟨2, false, 8⟩]⟩
    (by decide)).mpr (by decide)

/-- The only item of a queue is blocked: nothing can be fetched, and the fetch does not wait. -/
theorem fetch_spins_on_blocked : ¬∀ (calls : List (QueueCall ℕ)) (t : QueueLog ℕ),
    (machine ℕ).run calls = some t → t.queue.FetchDiscipline := by
  intro hall
  have hwait := (hall [.add ⟨1, true, 7⟩] ⟨⟨[⟨1, true, 7⟩], 1, []⟩, [.added ⟨1, true, 7⟩]⟩
    (by decide)).2
  simp [Queue.fetchoneWaits] at hwait

end QueueLog

end Khttp
