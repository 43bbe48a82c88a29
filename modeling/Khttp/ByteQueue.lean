import Khttp.DataBuffer
import Khttp.Lib.Machine

/-!
# The buffer list as a queue of bytes

`data_buffer_list_append` fills the last buffer of the list in place and links more
buffers behind it before it splices them to the list. Where the last buffer is reused and
more are needed, they are in the list already, and the splice links the end of the chain
back into the chain. The list is a byte queue as long as that does not happen.
-/

namespace Khttp

open Lib

namespace DataBufferList

/-- The buffer that `data_buffer_list_append` finds at the end of the list. -/
def lastBuffer (l : DataBufferList) : Option DataBuffer :=
  (l.first.bind (l.heap.lastFrom l.heap.length)).bind l.heap.val?

/-- The last buffer is full, or has room for `n` bytes. -/
def Fits (l : DataBufferList) (n : ℕ) : Prop :=
  ∀ b ∈ l.lastBuffer, b.wOffset = b.size ∨ n ≤ b.size - b.wOffset

instance (l : DataBufferList) (n : ℕ) : Decidable (l.Fits n) := by
  unfold Fits
  infer_instance

/-- A nonempty chain of buffers, cut at its last one. -/
theorem Represents.exists_last {l : DataBufferList} {front : List DataBuffer} {b : DataBuffer}
    (h : l.Represents (front ++ [b])) :
    ∃ i addrs a node, l.first = some i ∧ l.heap.Chain (some i) (addrs ++ [a]) ∧
      l.heap[a]? = some node ∧ node.val = b ∧ node.next = none ∧
      addrs.map l.heap.val? = front.map some ∧ l.heap.lastFrom l.heap.length i = some a := by
  obtain ⟨all, hchain, hvals⟩ := h
  obtain ⟨addrs, a, rfl⟩ : ∃ addrs a, all = addrs ++ [a] := by
    rcases List.eq_nil_or_concat all with rfl | ⟨addrs, a, rfl⟩
    · simp at hvals
    · exact ⟨addrs, a, List.concat_eq_append⟩
  obtain ⟨i, hi⟩ : ∃ i, l.first = some i := by
    rw [← hchain.head?_eq]
    cases addrs <;> exact ⟨_, rfl⟩
  rw [hi] at hchain
  simp only [List.map_append, List.map_cons, List.map_nil] at hvals
  obtain ⟨hfront, hlast⟩ := List.append_inj' hvals rfl
  have hlastFrom := hchain.lastFrom_eq rfl hchain.length_le
  have hsuffix := hchain.suffix
  cases hsuffix with
  | @cons _ node _ hnode hend =>
    refine ⟨i, addrs, a, node, hi, hchain, hnode, ?_, ?_, hfront, by simpa using hlastFrom⟩
    · simpa [Heap.val?, hnode] using hlast
    · exact hend.head?_eq.symm

/-- The last buffer of a chain of buffers. -/
theorem Represents.lastBuffer_eq {l : DataBufferList} {buffers : List DataBuffer}
    (h : l.Represents buffers) : l.lastBuffer = buffers.getLast? := by
  rcases List.eq_nil_or_concat buffers with rfl | ⟨front, b, rfl⟩
  · have hfirst := (h.drainRound_nil .wouldBlock).1
    simp [lastBuffer, hfirst]
  · rw [List.concat_eq_append] at h ⊢
    obtain ⟨i, _, a, node, hfirst, _, hnode, rfl, _, _, hlast⟩ := h.exists_last
    simp [lastBuffer, hfirst, hlast, Heap.val?, hnode]

/-- Appending to a list whose last buffer is reused: the buffers that are added behind it are
linked once more. -/
theorem Represents.append_reused {l : DataBufferList} {front : List DataBuffer} {b : DataBuffer}
    (h : l.Represents (front ++ [b])) (hroom : b.wOffset ≠ b.size) (src : Bytes) (n : ℕ) :
    ∃ l', l.append src n = some l' ∧
      (n ≤ b.size - b.wOffset →
        l'.Represents (front ++ [{ b with buffer := b.buffer ++ src.take n }])) ∧
      (b.size - b.wOffset < n → ∀ addrs, ¬l'.heap.Chain l'.first addrs) := by
  obtain ⟨i, addrs, a, node, hfirst, hchain, hnode, rfl, hnext, hvals, hlast⟩ := h.exists_last
  have hnodup := List.nodup_append.mp hchain.nodup
  have haddrs : ∀ j ∈ addrs, j < l.heap.length ∧ j ∉ [a] := fun j hj =>
    ⟨hchain.lt_length j (by simp [hj]), fun hja => hnodup.2.2 j hj a (by simp) (by simpa using hja)⟩
  have hown : l.heap.Chain (some a) [a] := hchain.suffix
  have hownVals : [a].map l.heap.val? = [node.val].map some := by simp [Heap.val?, hnode]
  obtain ⟨h₁, added, hgrow, hchain₁, hvals₁, hspace, _, hadded, hval₁, hnext₁⟩ :=
    grow_eq (n := n) hown hownVals
      (show node.val.size - node.val.wOffset = space [node.val] by simp [space])
      (show n - (node.val.size - node.val.wOffset) ≤ n from Nat.sub_le _ _)
  obtain ⟨h₂, hfill, hnext₂, hval₂, hvals₂⟩ :=
    fill_eq (src.take n) hchain₁ hvals₁ hchain₁.length_le
  have hchain₂ : h₂.Chain (some a) (a :: added) := hchain₁.congr fun j _ => hnext₂ j
  have hall : h₂.Chain (some i) (addrs ++ a :: added) := by
    refine hchain.splice hchain₂ fun j hj => ?_
    rw [hnext₂, hnext₁ j (haddrs j hj).1 (haddrs j hj).2]
  have hrest : (h₂[a]?).map Node.next = some added.head? := by
    cases hchain₂ with
    | @cons _ node₂ _ hnode₂ hend =>
      rw [hnode₂, Option.map_some, hend.head?_eq]
  have hfree : (node.val.wOffset = node.val.size) = False := by simp [hroom]
  have happend : l.append src n = (h₂.concat (some i) added.head?).map fun r =>
      ⟨r.1, r.2⟩ := by
    simp only [append, hfirst, hlast, Option.map_some, Option.bind_eq_bind, Option.bind_some,
      hnode, hfree, if_false, hgrow, hfill, Option.isSome_some, if_true, hrest]
    cases h₂.concat (some i) added.head? <;> rfl
  have hlast₂ := hall.lastFrom_eq rfl hall.length_le
  by_cases hle : n ≤ node.val.size - node.val.wOffset
  · obtain rfl := hadded.mpr hle
    have hend : h₂.next? a = some none := hrest
    have hchain₃ : (h₂.setNext a none).Chain (some i) (addrs ++ [a]) :=
      hall.setNext_last .nil (by simp)
    refine ⟨⟨h₂.setNext a none, some i⟩, ?_, fun _ => ⟨_, hchain₃, ?_⟩, fun hlt => by omega⟩
    · rw [happend, Heap.concat, hlast₂]
      simp
    · have hfront : addrs.map h₂.val? = addrs.map l.heap.val? := List.map_congr_left fun j hj => by
        rw [hval₂ j (by simpa using (haddrs j hj).2), hval₁ j (haddrs j hj).1]
      have htake : (src.take n).take (node.val.size - node.val.wOffset) = src.take n := by
        rw [List.take_take, Nat.min_eq_right hle]
      have hset : (addrs ++ [a]).map (h₂.setNext a none).val? = (addrs ++ [a]).map h₂.val? :=
        List.map_congr_left fun j _ => Heap.val?_setNext _ _ _ _
      simp only [List.append_nil, List.length_nil, List.replicate_zero, distribute, htake] at hvals₂
      rw [hset, List.map_append, List.map_append, hfront, hvals, hvals₂]
  · have hne : added ≠ [] := fun hnil => hle (hadded.mp hnil)
    obtain ⟨more, tail, rfl⟩ : ∃ more tail, added = more ++ [tail] := by
      rcases List.eq_nil_or_concat added with hnil | ⟨more, tail, hconcat⟩
      · exact absurd hnil hne
      · exact ⟨more, tail, by rw [hconcat, List.concat_eq_append]⟩
    obtain ⟨j, hj⟩ : ∃ j, (more ++ [tail]).head? = some j := by
      cases more <;> exact ⟨_, rfl⟩
    have hcut : addrs ++ a :: (more ++ [tail]) = (addrs ++ [a]) ++ (more ++ [tail]) := by simp
    rw [hcut] at hall hlast₂
    refine ⟨⟨h₂.setNext tail (some j), some i⟩, ?_, fun hle' => absurd hle' hle, fun _ l' => ?_⟩
    · rw [← List.append_assoc, List.getLast?_concat] at hlast₂
      rw [happend, Heap.concat, hlast₂, hj]
      rfl
    · exact hall.not_setNext_last hj l'

/-- Appending to a list whose last buffer is full links new buffers behind it. -/
theorem Represents.append_full {l : DataBufferList} {front : List DataBuffer} {b : DataBuffer}
    (h : l.Represents (front ++ [b])) (hfull : b.wOffset = b.size) (src : Bytes) (n : ℕ) :
    ∃ l' k, l.append src n = some l' ∧
      (src.take n).length ≤ space (List.replicate k freshBuffer) ∧
      l'.Represents (front ++ [b] ++ distribute (List.replicate k freshBuffer) (src.take n)) := by
  obtain ⟨i, addrs, a, node, hfirst, hchain, hnode, rfl, _, hvals, hlast⟩ := h.exists_last
  let h₀ := (l.heap.alloc freshBuffer).1
  have hnew : h₀[l.heap.length]? = some ⟨freshBuffer, none⟩ := by simp [h₀, Heap.alloc]
  obtain ⟨h₁, added, hgrow, hchain₁, hvals₁, hspace, hfresh, _, hval₁, hnext₁⟩ :=
    grow_eq (n := n) (show h₀.Chain (some l.heap.length) [l.heap.length] from .cons hnew .nil)
      (show [l.heap.length].map h₀.val? = [freshBuffer].map some by simp [Heap.val?, hnew])
      (show dataBufferSize = space [freshBuffer] from rfl)
      (show n - dataBufferSize ≤ n from Nat.sub_le _ _)
  obtain ⟨h₂, hfill, hnext₂, hval₂, hvals₂⟩ :=
    fill_eq (src.take n) hchain₁ hvals₁ hchain₁.length_le
  have hlength₀ : h₀.length = l.heap.length + 1 := by simp [h₀, Heap.alloc]
  have hnewAddrs : ∀ j ∈ l.heap.length :: added, l.heap.length ≤ j := by
    intro j hj
    rcases List.mem_cons.mp hj with rfl | hj
    · exact le_rfl
    · have hle := hfresh j hj
      omega
  have hold : ∀ j ∈ addrs ++ [a], h₂.next? j = l.heap.next? j ∧ h₂.val? j = l.heap.val? j := by
    intro j hj
    have hlt := hchain.lt_length j hj
    have hnot : j ∉ [l.heap.length] ++ added := fun hmem => by
      have hle := hnewAddrs j hmem
      omega
    have hzero : h₀[j]? = l.heap[j]? := Heap.getElem?_alloc _ _ hlt
    constructor
    · rw [hnext₂, hnext₁ j (by omega) (fun hmem => hnot (by simp_all)), Heap.next?, Heap.next?,
        hzero]
    · rw [hval₂ j hnot, hval₁ j (by omega), Heap.val?, Heap.val?, hzero]
  have hchain₂ : h₂.Chain (some i) (addrs ++ [a]) := hchain.congr fun j hj => (hold j hj).1
  have hadded₂ : h₂.Chain (some l.heap.length) (l.heap.length :: added) :=
    hchain₁.congr fun j _ => hnext₂ j
  obtain ⟨tail, _, hconcat, hjoined⟩ := hchain₂.concat hadded₂ fun j hj hmem => by
    have hlt := hchain.lt_length j hj
    have hle := hnewAddrs j hmem
    omega
  rw [show [freshBuffer] ++ List.replicate added.length freshBuffer =
    List.replicate (added.length + 1) freshBuffer from rfl] at hspace hvals₂
  have hlength : (src.take n).length ≤ space (List.replicate (added.length + 1) freshBuffer) := by
    simp only [List.length_take]
    omega
  refine ⟨⟨h₂.setNext tail (some l.heap.length), some i⟩, _, ?_, hlength, _, hjoined, ?_⟩
  · simp only [append, hfirst, hlast, Option.map_some, Option.bind_eq_bind, Option.bind_some,
      hnode, hfull, if_true, Option.isSome_none, Bool.false_eq_true, if_false]
    rw [show (l.heap.alloc freshBuffer).2 = l.heap.length from rfl, hgrow]
    simp only [Option.bind_some, hfill, hconcat]
  · have hkept : (addrs ++ [a]).map h₂.val? = (front ++ [node.val]).map some := by
      rw [List.map_congr_left fun j hj => (hold j hj).2, List.map_append, hvals, List.map_append]
      simp [Heap.val?, hnode]
    have hset (xs : List ℕ) : xs.map (h₂.setNext tail (some l.heap.length)).val? =
        xs.map h₂.val? := List.map_congr_left fun j _ => Heap.val?_setNext _ _ _ _
    have hnewVals : (l.heap.length :: added).map h₂.val? =
        (distribute (List.replicate (added.length + 1) freshBuffer) (src.take n)).map some := hvals₂
    rw [hset, List.map_append, hkept, hnewVals, ← List.map_append]

/-- Buffers in order, and the bytes that wait in them. -/
def Waiting (l : DataBufferList) (bs : Bytes) : Prop :=
  ∃ buffers, l.Represents buffers ∧ (∀ b ∈ buffers, b.Ordered) ∧
    buffers.flatMap DataBuffer.pending = bs

/-- A list whose buffers are counted holds them in order. -/
theorem Holds.waiting {l : DataBufferList} {k : ℕ} {bs : Bytes} (h : l.Holds k bs) :
    l.Waiting bs := by
  obtain ⟨buffers, hbuffers, _, hordered, hpending⟩ := h
  exact ⟨buffers, hbuffers, hordered, hpending⟩

/-- Buffers in order can be counted. -/
theorem Waiting.exists_holds {l : DataBufferList} {bs : Bytes} (h : l.Waiting bs) :
    ∃ k, l.Holds k bs := by
  obtain ⟨buffers, hbuffers, hordered, hpending⟩ := h
  exact ⟨_, buffers, hbuffers, rfl, hordered, hpending⟩

/-- Appending to a list whose last buffer is full or has room makes the bytes wait at the end. -/
theorem Waiting.append {l : DataBufferList} {bs : Bytes} (h : l.Waiting bs) (src : Bytes) {n : ℕ}
    (hfits : l.Fits n) : ∃ l', l.append src n = some l' ∧ l'.Waiting (bs ++ src.take n) := by
  obtain ⟨buffers, hbuffers, hordered, rfl⟩ := h
  have hlast := hbuffers.lastBuffer_eq
  rcases List.eq_nil_or_concat buffers with rfl | ⟨front, b, rfl⟩
  · obtain ⟨l', k, happend, hl'⟩ :=
      append_of_first_none src n (hbuffers.drainRound_nil .wouldBlock).1
    exact ⟨l', happend, hl'.waiting⟩
  · rw [List.concat_eq_append] at hbuffers hordered hlast ⊢
    have hb : b.Ordered := hordered b (by simp)
    by_cases hfull : b.wOffset = b.size
    · obtain ⟨l', k, happend, hspace, hl'⟩ := hbuffers.append_full hfull src n
      refine ⟨l', happend, _, hl', ?_, ?_⟩
      · intro c hc
        rcases List.mem_append.mp hc with hold | hnew
        · exact hordered c hold
        · refine distribute_ordered (fun d hd => ?_) c hnew
          rw [List.eq_of_mem_replicate hd]
          exact freshBuffer_ordered
      · rw [List.flatMap_append, distribute_pending hspace]
    · have hroom := (hfits b (by simp [hlast])).resolve_left hfull
      obtain ⟨l', happend, hl', _⟩ := hbuffers.append_reused hfull src n
      refine ⟨l', happend, _, hl' hroom, ?_, ?_⟩
      · intro c hc
        rcases List.mem_append.mp hc with hold | hnew
        · exact hordered c (by simp [hold])
        · obtain rfl := List.mem_singleton.mp hnew
          simp only [DataBuffer.Ordered, DataBuffer.wOffset, List.length_append,
            List.length_take] at hb hroom ⊢
          omega
      · have hdrop : (b.buffer ++ src.take n).drop b.rOffset =
            b.buffer.drop b.rOffset ++ src.take n := List.drop_append_of_le_length hb.1
        simp [DataBuffer.pending, hdrop]

/-- Appending more than the last buffer has room for makes a chain that does not end. -/
theorem Waiting.append_of_not_fits {l l' : DataBufferList} {bs src : Bytes} {n : ℕ}
    (h : l.Waiting bs) (hfits : ¬l.Fits n) (happend : l.append src n = some l') (bs' : Bytes) :
    ¬l'.Waiting bs' := by
  obtain ⟨buffers, hbuffers, _, rfl⟩ := h
  have hlast := hbuffers.lastBuffer_eq
  rintro ⟨_, ⟨addrs, hchain, _⟩, _⟩
  rcases List.eq_nil_or_concat buffers with rfl | ⟨front, b, rfl⟩
  · apply hfits
    intro b hb
    simp [hlast] at hb
  · rw [List.concat_eq_append] at hbuffers hlast
    have hb : ¬(b.wOffset = b.size ∨ n ≤ b.size - b.wOffset) := fun hb => hfits fun c hc => by
      obtain rfl : b = c := by simpa [hlast] using hc
      exact hb
    obtain ⟨hfull, hmore⟩ := not_or.mp hb
    obtain ⟨l'', happend', _, hcycle⟩ := hbuffers.append_reused hfull src n
    obtain rfl := Option.some.inj (happend.symm.trans happend')
    exact hcycle (by omega) addrs hchain

end DataBufferList

/-- A buffer list in use, with a record of the bytes that went in and out. -/
structure ByteQueue where
  /-- The list. -/
  list : DataBufferList
  /-- Whether a call of `data_buffer_list_writeto_fd` is in its loop. -/
  draining : Bool
  /-- The sources appended so far. -/
  appended : Bytes
  /-- The bytes accepted by the descriptor so far. -/
  accepted : Bytes

/-- What is done with a buffer list. -/
inductive ByteQueueAction where
  /-- `data_buffer_list_append` of all bytes of a source. -/
  | append (src : Bytes)
  /-- A call of `data_buffer_list_writeto_fd` begins. -/
  | writetoFd
  /-- A round of its loop, with what its `write` does if it makes one. -/
  | round (outcome : WriteOutcome)
  deriving DecidableEq, Repr

namespace ByteQueue

/-- The bytes that `write` takes of those it is offered. -/
def taken (offered : Bytes) : WriteOutcome → Bytes
  | .accept n => offered.take n
  | .wouldBlock | .hardError => []

/-- A round of the loop of `data_buffer_list_writeto_fd`; a refused `write` ends the call. -/
def round (s : ByteQueue) (outcome : WriteOutcome) : Option ByteQueue :=
  match s.list.drainRound outcome with
  | .fault => none
  | .drained => some { s with draining := false }
  | .unlinked list => some { s with list }
  | .wrote offered list =>
    some { s with
      list
      draining := outcome matches .accept _
      accepted := s.accepted ++ taken offered outcome }

/-- One step of the use of a buffer list. -/
def step (s : ByteQueue) : ByteQueueAction → Option ByteQueue
  | .append src =>
    if s.draining = false ∧ src ≠ [] then
      (s.list.append src src.length).map fun list => { s with list, appended := s.appended ++ src }
    else none
  | .writetoFd => if s.draining then none else some { s with draining := true }
  | .round outcome => if s.draining then s.round outcome else none

/-- The chain ends, its buffers are in order, and the bytes accepted and those that wait are
the bytes appended. -/
def IsByteQueue (s : ByteQueue) : Prop :=
  ∃ buffers, s.list.Represents buffers ∧ (∀ b ∈ buffers, b.Ordered) ∧
    s.accepted ++ buffers.flatMap DataBuffer.pending = s.appended

/-- A source that is appended does not make the list reuse its last buffer and need more. -/
def AppendFits (s : ByteQueue) : ByteQueueAction → Prop
  | .append src => s.list.Fits src.length
  | .writetoFd | .round _ => True

instance (s : ByteQueue) (a : ByteQueueAction) : Decidable (s.AppendFits a) := by
  unfold AppendFits
  cases a <;> infer_instance

/-- What a byte queue has to do with the bytes that wait. -/
theorem isByteQueue_iff {s : ByteQueue} :
    s.IsByteQueue ↔ ∃ bs, s.list.Waiting bs ∧ s.accepted ++ bs = s.appended := by
  constructor
  · rintro ⟨buffers, hbuffers, hordered, hall⟩
    exact ⟨_, ⟨buffers, hbuffers, hordered, rfl⟩, hall⟩
  · rintro ⟨_, ⟨buffers, hbuffers, hordered, rfl⟩, hall⟩
    exact ⟨buffers, hbuffers, hordered, hall⟩

/-- A round of draining keeps a byte queue. -/
theorem IsByteQueue.round {s t : ByteQueue} {outcome : WriteOutcome} (h : s.IsByteQueue)
    (hround : s.round outcome = some t) : t.IsByteQueue := by
  obtain ⟨bs, hwaiting, hall⟩ := isByteQueue_iff.mp h
  obtain ⟨k, hholds⟩ := hwaiting.exists_holds
  rw [isByteQueue_iff]
  unfold ByteQueue.round at hround
  rcases hholds.drainRound_cases outcome with ⟨hr, _, _⟩ | ⟨l, k', hr, hl, _⟩ |
    ⟨offered, l, hr, _, hpre, _, haccept, hrefuse⟩
  · rw [hr] at hround
    obtain rfl := Option.some.inj hround
    exact ⟨bs, hwaiting, hall⟩
  · rw [hr] at hround
    obtain rfl := Option.some.inj hround
    exact ⟨bs, hl.waiting, hall⟩
  · rw [hr] at hround
    obtain rfl := Option.some.inj hround
    cases outcome with
    | accept n =>
      refine ⟨_, (haccept n rfl).waiting, ?_⟩
      have htake : offered.take n = bs.take (min n offered.length) := by
        obtain ⟨rest, rfl⟩ := hpre
        rw [List.take_append_of_le_length (by omega), List.take_eq_take_iff]
        omega
      have hjoin : bs.take (min n offered.length) ++ bs.drop (min n offered.length) = bs :=
        List.take_append_drop _ _
      rw [taken, htake, List.append_assoc, hjoin, hall]
    | wouldBlock | hardError =>
      obtain rfl := hrefuse (by simp)
      exact ⟨bs, hwaiting, by simpa [taken] using hall⟩

/-- A step keeps a byte queue if and only if what it appends fits. -/
theorem isByteQueue_step_iff {s t : ByteQueue} {a : ByteQueueAction} (h : s.IsByteQueue)
    (hstep : s.step a = some t) : t.IsByteQueue ↔ s.AppendFits a := by
  cases a with
  | append src =>
    obtain ⟨bs, hwaiting, hall⟩ := isByteQueue_iff.mp h
    simp only [step] at hstep
    split at hstep
    · obtain ⟨list, happend, rfl⟩ := Option.map_eq_some_iff.mp hstep
      constructor
      · intro hqueue
        obtain ⟨bs', hwaiting', _⟩ := isByteQueue_iff.mp hqueue
        by_contra hfits
        exact hwaiting.append_of_not_fits hfits happend bs' hwaiting'
      · intro hfits
        obtain ⟨list', happend', hwaiting'⟩ := hwaiting.append src hfits
        obtain rfl := Option.some.inj (happend.symm.trans happend')
        refine isByteQueue_iff.mpr ⟨_, hwaiting', ?_⟩
        rw [List.take_length, ← List.append_assoc, hall]
    · simp at hstep
  | writetoFd =>
    simp only [step] at hstep
    split at hstep
    · simp at hstep
    · obtain rfl := Option.some.inj hstep
      exact ⟨fun _ => trivial, fun _ => h⟩
  | round outcome =>
    simp only [step] at hstep
    split at hstep
    · exact ⟨fun _ => trivial, fun _ => h.round hstep⟩
    · simp at hstep

end ByteQueue

/-- The use of a list from `data_buffer_list_new` on. -/
def byteQueueMachine : Machine ByteQueue ByteQueueAction := ⟨⟨.new, false, [], []⟩, ByteQueue.step⟩

namespace ByteQueue

/-- **When the list is a byte queue.** Whatever is appended and however the descriptor takes
the bytes, the list is a byte queue in every state if and only if each source that is
appended fits: the last buffer is full, or has room for all of it, or there is none. -/
theorem isByteQueue_along_run_iff {as : List ByteQueueAction} {s : ByteQueue}
    (hrun : byteQueueMachine.run as = some s) :
    (∀ bs, bs <+: as → ∀ t, byteQueueMachine.run bs = some t → t.IsByteQueue) ↔
      byteQueueMachine.Meets AppendFits byteQueueMachine.init as := by
  have hnew : byteQueueMachine.init.IsByteQueue := ⟨[], ⟨[], .nil, rfl⟩, by simp, rfl⟩
  exact byteQueueMachine.always_iff (fun s a t h hstep => isByteQueue_step_iff h hstep) hnew hrun

/-- Two sources in one buffer with a part of the first sent in between. -/
theorem isByteQueue_refill :
    IsByteQueue ⟨⟨[⟨⟨[1, 2, 3], 16384, 1⟩, none⟩], some 0⟩, false, [1, 2, 3], [1]⟩ := by
  have hrun : byteQueueMachine.run
      [.append [1, 2], .writetoFd, .round (.accept 1), .round .wouldBlock, .append [3]] =
        some ⟨⟨[⟨⟨[1, 2, 3], 16384, 1⟩, none⟩], some 0⟩, false, [1, 2, 3], [1]⟩ := by rfl
  exact (isByteQueue_along_run_iff hrun).mpr (by decide +kernel) _ List.prefix_rfl _ hrun

/-- One byte, and then one more than the rest of its buffer has room for: the list is none. -/
theorem not_isByteQueue_overlong : ∃ t,
    byteQueueMachine.run [.append [0], .append (List.replicate 16384 0)] = some t ∧
      ¬t.IsByteQueue := by
  have hlength : (List.replicate 16384 (0 : UInt8)).length = 16384 := List.length_replicate
  generalize List.replicate 16384 (0 : UInt8) = src at hlength
  let b : DataBuffer := ⟨[0], 16384, 0⟩
  let s : ByteQueue := ⟨⟨[⟨b, none⟩], some 0⟩, false, [0], []⟩
  have hs : byteQueueMachine.step byteQueueMachine.init (.append [0]) = some s := by rfl
  have hlist : s.list.Represents ([] ++ [b]) := ⟨[0], .cons rfl .nil, rfl⟩
  have hordered : b.Ordered := by decide
  have hqueue : s.IsByteQueue := ⟨[b], hlist, by simpa using hordered, rfl⟩
  obtain ⟨l, happend, _⟩ := hlist.append_reused (by decide) src src.length
  have ht : byteQueueMachine.step s (.append src) =
      some { s with list := l, appended := s.appended ++ src } := by
    have hcond : s.draining = false ∧ src ≠ [] := ⟨rfl, by rintro rfl; simp at hlength⟩
    simp only [byteQueueMachine, step, if_pos hcond, happend, Option.map_some]
  refine ⟨_, (Machine.runFrom_cons _).mpr ⟨s, hs, (Machine.runFrom_cons _).mpr ⟨_, ht, rfl⟩⟩, ?_⟩
  intro hafter
  have hstep : s.step (.append src) = _ := ht
  have hfits : s.list.Fits src.length := (isByteQueue_step_iff hqueue hstep).mp hafter
  rw [hlength] at hfits
  exact absurd hfits (by decide)

end ByteQueue

end Khttp
