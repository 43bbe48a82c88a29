import Khttp.Bytes
import Khttp.Lib.LinkedList
import Mathlib.Algebra.BigOperators.Group.List.Basic

/-!
# The output buffer list

`data-buffer.c`: bytes to be written wait in a chain of 16 KiB buffers. Appending
fills the last buffer, adds buffers behind it and splices them to the list;
draining sends from the first buffer and unlinks it once it is empty.
-/

namespace Khttp

open Lib

/-- `DATA_BUFFER_SIZE`. -/
def dataBufferSize : ℕ := 16 * 1024

/-- `data_buffer` without its link. The list of bytes copied into `buffer` so far
stands for the memory below `wOffset`. -/
structure DataBuffer where
  /-- The bytes of `buffer` below `wOffset`. -/
  buffer : Bytes
  /-- The allocated size. -/
  size : ℕ
  /-- The bytes already sent. -/
  rOffset : ℕ
  deriving DecidableEq, Repr

/-- The write offset: everything below it has been copied in. -/
def DataBuffer.wOffset (b : DataBuffer) : ℕ := b.buffer.length

/-- The bytes of a buffer that wait to be sent. -/
def DataBuffer.pending (b : DataBuffer) : Bytes := b.buffer.drop b.rOffset

/-- The offsets are in order. -/
def DataBuffer.Ordered (b : DataBuffer) : Prop := b.rOffset ≤ b.wOffset ∧ b.wOffset ≤ b.size

instance (b : DataBuffer) : Decidable b.Ordered := instDecidableAnd

/-- `data_buffer_list`: the head of the chain, and the memory its nodes live in. -/
structure DataBufferList where
  /-- The nodes. -/
  heap : Heap DataBuffer
  /-- The head of the chain. -/
  first : Option ℕ
  deriving DecidableEq, Repr

/-- What one `write` call does with the bytes it is offered. -/
inductive WriteOutcome where
  /-- It accepts at most this many of them, from the front. -/
  | accept (n : ℕ)
  /-- It fails with `EAGAIN` or `EWOULDBLOCK`. -/
  | wouldBlock
  /-- It fails with another error. -/
  | hardError
  deriving DecidableEq, Repr

namespace DataBufferList

/-- `data_buffer_list_new`. -/
def new : DataBufferList := ⟨[], none⟩

/-- `data_buffer_new(DATA_BUFFER_SIZE)`. -/
def freshBuffer : DataBuffer := ⟨[], dataBufferSize, 0⟩

/-- The loop that adds buffers behind `newbuf` until `n` bytes fit. The fuel is the
number of bytes that lack space. -/
def grow (newbuf n : ℕ) : ℕ → Heap DataBuffer → ℕ → Option (Heap DataBuffer)
  | fuel, h, allocated =>
    if allocated < n then
      match fuel with
      | 0 => none
      | fuel + 1 =>
        let (h, buffer) := h.alloc freshBuffer
        match h.append (some newbuf) buffer with
        | none => none
        | some (h, _) => grow newbuf n fuel h (allocated + dataBufferSize)
    else some h

/-- The loop that copies the source into the free space along a chain. -/
def fill : ℕ → Heap DataBuffer → Option ℕ → Bytes → Option (Heap DataBuffer)
  | _, h, none, _ => some h
  | 0, _, some _, _ => none
  | fuel + 1, h, some i, src =>
    match h[i]? with
    | none => none
    | some elem =>
      let copyCount := min src.length (elem.val.size - elem.val.wOffset)
      fill fuel (h.modifyVal i fun b => { b with buffer := b.buffer ++ src.take copyCount })
        elem.next (src.drop copyCount)

/-- `data_buffer_list_append` of the first `n` bytes of a source. It has no result
where a walk along the chain does not end. -/
def append (l : DataBufferList) (src : Bytes) (n : ℕ) : Option DataBufferList := do
  let last ← match l.first with
    | none => some none
    | some i => (l.heap.lastFrom l.heap.length i).map some
  -- the last buffer is reused unless it is full
  let reused := last.bind fun i => (l.heap[i]?).bind fun node =>
    if node.val.wOffset = node.val.size then none else some (i, node.val)
  let (h, newbuf, free) := match reused with
    | some (i, b) => (l.heap, i, b.size - b.wOffset)
    | none => ((l.heap.alloc freshBuffer).1, (l.heap.alloc freshBuffer).2, dataBufferSize)
  let h ← grow newbuf n n h free
  let h ← fill h.length h (some newbuf) (src.take n)
  -- a reused buffer is not linked a second time: `LL_DELETE(newbuf, newbuf)`
  let rest ← if reused.isSome then (h[newbuf]?).map Node.next else some (some newbuf)
  let (h, first) ← h.concat l.first rest
  some ⟨h, first⟩

/-- One round of the loop of `data_buffer_list_writeto_fd`. -/
inductive DrainRound where
  /-- The list is empty: the loop ends with a result of at least zero. -/
  | drained
  /-- The first buffer had nothing left and was unlinked and freed. -/
  | unlinked (l : DataBufferList)
  /-- The bytes were offered to `write`, with this list after its outcome. -/
  | wrote (offered : Bytes) (l : DataBufferList)
  /-- The first pointer is wild. -/
  | fault
  deriving DecidableEq, Repr

/-- One round of the loop of `data_buffer_list_writeto_fd`: `next` is always the
first node. A refused write leaves the list and ends the loop with -1. -/
def drainRound (l : DataBufferList) (outcome : WriteOutcome) : DrainRound :=
  match l.first with
  | none => .drained
  | some i =>
    match l.heap[i]? with
    | none => .fault
    | some next =>
      if 0 < next.val.wOffset - next.val.rOffset then
        match outcome with
        | .accept n =>
          .wrote next.val.pending { l with heap := l.heap.modifyVal i fun b =>
            { b with rOffset := b.rOffset + min n next.val.pending.length } }
        | .wouldBlock | .hardError => .wrote next.val.pending l
      else .unlinked { l with first := next.next }

/-- The chain of a list is finite, and these are its buffers in order. -/
def Represents (l : DataBufferList) (buffers : List DataBuffer) : Prop :=
  ∃ addrs, l.heap.Chain l.first addrs ∧
    addrs.map l.heap.val? = buffers.map some

/-- The chain of a list has `k` buffers, they are ordered, and `bs` are the bytes that
wait in them. -/
def Holds (l : DataBufferList) (k : ℕ) (bs : Bytes) : Prop :=
  ∃ buffers, l.Represents buffers ∧ buffers.length = k ∧ (∀ b ∈ buffers, b.Ordered) ∧
    buffers.flatMap DataBuffer.pending = bs

/-- A list without a first buffer holds nothing. -/
theorem holds_nil_of_first {l : DataBufferList} (hfirst : l.first = none) : l.Holds 0 [] :=
  ⟨[], ⟨[], by rw [hfirst]; exact .nil, rfl⟩, rfl, by simp, rfl⟩

/-- What a list without a first buffer holds is nothing. -/
theorem Holds.eq_nil {l : DataBufferList} {k : ℕ} {bs : Bytes} (h : l.Holds k bs)
    (hfirst : l.first = none) : bs = [] := by
  obtain ⟨buffers, ⟨addrs, hchain, hvals⟩, _, _, rfl⟩ := h
  rw [hfirst] at hchain
  obtain rfl := hchain.unique .nil
  obtain rfl : buffers = [] := by simpa using hvals.symm
  rfl

/-- The buffers along a chain after as much of a source as fits is copied into them. -/
def distribute : List DataBuffer → Bytes → List DataBuffer
  | [], _ => []
  | b :: rest, src =>
    { b with buffer := b.buffer ++ src.take (b.size - b.wOffset) } ::
      distribute rest (src.drop (b.size - b.wOffset))

/-- The copying loop distributes the source over the chain and touches nothing else. -/
theorem fill_eq {h : Heap DataBuffer} {p : Option ℕ} {addrs : List ℕ}
    {buffers : List DataBuffer} (src : Bytes) {fuel : ℕ} (hchain : h.Chain p addrs)
    (hvals : addrs.map h.val? = buffers.map some)
    (hfuel : addrs.length ≤ fuel) :
    ∃ h', fill fuel h p src = some h' ∧ (∀ i, h'.next? i = h.next? i) ∧
      (∀ i ∉ addrs, h'.val? i = h.val? i) ∧
      addrs.map h'.val? = (distribute buffers src).map some := by
  induction addrs generalizing h p buffers src fuel with
  | nil =>
    cases hchain
    obtain rfl : buffers = [] := by simpa using hvals.symm
    exact ⟨h, by cases fuel <;> rfl, fun _ => rfl, fun _ _ => rfl, rfl⟩
  | cons i rest ih =>
    have hnodup := List.nodup_cons.mp hchain.nodup
    obtain ⟨fuel, rfl⟩ : ∃ k, fuel = k + 1 :=
      ⟨fuel - 1, by simp only [List.length_cons] at hfuel; omega⟩
    obtain ⟨b, buffers, rfl⟩ : ∃ b bs, buffers = b :: bs := by
      cases buffers with
      | nil => simp at hvals
      | cons b bs => exact ⟨b, bs, rfl⟩
    simp only [List.map_cons, List.cons.injEq] at hvals
    obtain ⟨hb, hvals⟩ := hvals
    cases hchain with
    | @cons _ node _ hnode hrest =>
      obtain rfl : node.val = b := by simpa [Heap.val?, hnode] using hb
      let copyCount := min src.length (node.val.size - node.val.wOffset)
      let h₁ := h.modifyVal i fun b => { b with buffer := b.buffer ++ src.take copyCount }
      have hvals₁ : rest.map h₁.val? = buffers.map some := by
        rw [← hvals]
        refine List.map_congr_left fun j hj => ?_
        have hij : i ≠ j := fun heq => hnodup.1 (heq ▸ hj)
        rw [Heap.val?_modifyVal, if_neg hij]
      obtain ⟨h', hfill, hnext, hother, hvals'⟩ :=
        ih (src.drop copyCount) (hrest.modifyVal i _) hvals₁
          (show rest.length ≤ fuel by simp only [List.length_cons] at hfuel; omega)
      have htake : src.take copyCount = src.take (node.val.size - node.val.wOffset) := by
        rw [List.take_eq_take_iff]
        omega
      have hdrop : src.drop copyCount = src.drop (node.val.size - node.val.wOffset) := by
        rw [List.drop_eq_drop_iff]
        omega
      refine ⟨h', ?_, fun j => ?_, fun j hj => ?_, ?_⟩
      · simpa only [fill, hnode] using hfill
      · rw [hnext, Heap.next?_modifyVal]
      · have hij : i ≠ j := fun heq => hj (heq ▸ List.mem_cons_self)
        rw [hother j fun hmem => hj (List.mem_cons_of_mem i hmem), Heap.val?_modifyVal,
          if_neg hij]
      · rw [List.map_cons, hvals', hdrop, hother i hnodup.1, Heap.val?_modifyVal, if_pos rfl,
          hb, htake]
        rfl

/-- The space left in a chain of buffers. -/
def space (buffers : List DataBuffer) : ℕ := (buffers.map fun b => b.size - b.wOffset).sum

/-- The growing loop ends with fresh buffers added behind the chain it was given, enough of
them for the source, and touches nothing else. -/
theorem grow_eq {h : Heap DataBuffer} {newbuf n fuel allocated : ℕ} {addrs : List ℕ}
    {buffers : List DataBuffer} (hchain : h.Chain (some newbuf) addrs)
    (hvals : addrs.map h.val? = buffers.map some)
    (hallocated : allocated = space buffers) (hfuel : n - allocated ≤ fuel) :
    ∃ h' added, grow newbuf n fuel h allocated = some h' ∧
      h'.Chain (some newbuf) (addrs ++ added) ∧
      (addrs ++ added).map h'.val? =
        (buffers ++ List.replicate added.length freshBuffer).map some ∧
      n ≤ space (buffers ++ List.replicate added.length freshBuffer) ∧
      (∀ j ∈ added, h.length ≤ j) ∧ (added = [] ↔ n ≤ allocated) ∧
      (∀ j < h.length, h'.val? j = h.val? j) ∧
      (∀ j < h.length, j ∉ addrs → h'.next? j = h.next? j) := by
  induction fuel generalizing h allocated addrs buffers with
  | zero =>
    refine ⟨h, [], ?_, by simpa using hchain, by simpa using hvals, ?_, by simp,
      by simp; omega,
      fun _ _ => rfl, fun _ _ _ => rfl⟩
    · rw [grow, if_neg (by omega)]
    · simp only [List.length_nil, List.replicate_zero, List.append_nil]
      omega
  | succ fuel ih =>
    by_cases hlt : allocated < n
    · obtain ⟨h₁, happend, hchain₁, hlength₁, hold, hnew, hlinks⟩ :=
        hchain.append_alloc freshBuffer
      have hvals₁ : (addrs ++ [h.length]).map h₁.val? = (buffers ++ [freshBuffer]).map some := by
        rw [List.map_append, List.map_append, ← hvals, List.map_singleton, hnew]
        rw [List.map_congr_left fun j hj => hold j (hchain.lt_length j hj)]
        rfl
      have hspace : allocated + dataBufferSize = space (buffers ++ [freshBuffer]) := by
        simp [space, hallocated, freshBuffer, DataBuffer.wOffset]
      obtain ⟨h', added, hgrow, hchain', hvals', hn, hfresh, _, hval, hnext⟩ :=
        ih hchain₁ hvals₁ hspace
          (by have : 0 < dataBufferSize := by decide
              omega)
      refine ⟨h', h.length :: added, ?_, by simpa using hchain', ?_, ?_, ?_, by simpa using hlt, ?_,
        ?_⟩
      · rw [grow, if_pos hlt]
        simp only [happend]
        exact hgrow
      · simpa [List.replicate_succ] using hvals'
      · simpa [List.replicate_succ] using hn
      · intro j hj
        rcases List.mem_cons.mp hj with rfl | hj
        · exact le_rfl
        · have hle := hfresh j hj
          omega
      · intro j hj
        rw [hval j (by omega), hold j hj]
      · intro j hj hmem
        have hne : j ∉ addrs ++ [h.length] := by
          simp only [List.mem_append, List.mem_singleton, not_or]
          exact ⟨hmem, by omega⟩
        rw [hnext j (by omega) hne, hlinks j hj hmem]
    · refine ⟨h, [], ?_, by simpa using hchain, by simpa using hvals, ?_, by simp,
      by simp; omega,
        fun _ _ => rfl, fun _ _ _ => rfl⟩
      · rw [grow, if_neg hlt]
      · simp only [List.length_nil, List.replicate_zero, List.append_nil]
        omega

/-- A fresh buffer is in order and empty. -/
theorem freshBuffer_ordered : freshBuffer.Ordered := ⟨le_rfl, Nat.zero_le _⟩

/-- Copying into ordered buffers keeps them ordered. -/
theorem distribute_ordered {buffers : List DataBuffer} {src : Bytes}
    (hordered : ∀ b ∈ buffers, b.Ordered) : ∀ b ∈ distribute buffers src, b.Ordered := by
  induction buffers generalizing src with
  | nil => simp [distribute]
  | cons b rest ih =>
    intro b' hb'
    rcases List.mem_cons.mp hb' with rfl | hb'
    · have h := hordered b (by simp)
      simp only [DataBuffer.Ordered, DataBuffer.wOffset, List.length_append,
        List.length_take] at h ⊢
      omega
    · exact ih (fun b hb => hordered b (by simp [hb])) b' hb'

/-- Copying into a chain of empty buffers with enough space makes the source wait there. -/
theorem distribute_pending {src : Bytes} {k : ℕ}
    (hspace : src.length ≤ space (List.replicate k freshBuffer)) :
    (distribute (List.replicate k freshBuffer) src).flatMap DataBuffer.pending = src := by
  induction k generalizing src with
  | zero =>
    have hnil : src = [] := List.eq_nil_of_length_eq_zero (by simpa [space] using hspace)
    simp [distribute, hnil]
  | succ k ih =>
    have hrest : (src.drop dataBufferSize).length ≤ space (List.replicate k freshBuffer) := by
      simp only [space, List.replicate_succ, List.map_cons, List.sum_cons, freshBuffer,
        DataBuffer.wOffset, List.length_nil] at hspace ⊢
      simp only [List.length_drop]
      omega
    rw [List.replicate_succ, distribute, List.flatMap_cons]
    have hfree : freshBuffer.size - freshBuffer.wOffset = dataBufferSize := rfl
    rw [hfree, ih hrest]
    exact List.take_append_drop dataBufferSize src

/-- Appending to a list without buffers makes exactly the appended bytes wait in it. -/
theorem append_of_first_none {l : DataBufferList} (src : Bytes) (n : ℕ)
    (hfirst : l.first = none) :
    ∃ l' k, l.append src n = some l' ∧ l'.Holds k (src.take n) := by
  have hnew : (l.heap.alloc freshBuffer).1[l.heap.length]? = some ⟨freshBuffer, none⟩ := by
    simp [Heap.alloc]
  have hchain : (l.heap.alloc freshBuffer).1.Chain (some l.heap.length) [l.heap.length] :=
    .cons hnew .nil
  have hvals : [l.heap.length].map (l.heap.alloc freshBuffer).1.val? = [freshBuffer].map some := by
    simp [Heap.val?, hnew]
  obtain ⟨h₁, added, hgrow, hchain₁, hvals₁, hspace, _⟩ :=
    grow_eq hchain hvals (show dataBufferSize = space [freshBuffer] from rfl)
      (show n - dataBufferSize ≤ n from Nat.sub_le _ _)
  rw [show [freshBuffer] ++ List.replicate added.length freshBuffer =
    List.replicate (added.length + 1) freshBuffer from rfl] at hvals₁ hspace
  obtain ⟨h₂, hfill, hnext, _, hvals₂⟩ := fill_eq (src.take n) hchain₁ hvals₁ hchain₁.length_le
  refine ⟨⟨h₂, some l.heap.length⟩, _, ?_, _, ⟨_, ?_, hvals₂⟩, rfl, ?_, ?_⟩
  · simp only [append, hfirst, Option.bind_none, Option.isSome_none, Bool.false_eq_true,
      if_false, Option.bind_eq_bind, Option.bind_some, Heap.concat]
    rw [show (l.heap.alloc freshBuffer).2 = l.heap.length from rfl, hgrow]
    simp only [Option.bind_some, hfill]
  · exact hchain₁.congr fun i _ => hnext i
  · apply distribute_ordered
    intro b hb
    rw [List.eq_of_mem_replicate hb]
    exact freshBuffer_ordered
  · apply distribute_pending
    simp only [List.length_take]
    omega

/-- The number of bytes waiting in a buffer is the difference of its offsets. -/
theorem length_pending (b : DataBuffer) : b.pending.length = b.wOffset - b.rOffset :=
  List.length_drop

/-- A nonempty chain has its first buffer at the head of the list. -/
theorem Represents.exists_node {l : DataBufferList} {b : DataBuffer} {rest : List DataBuffer}
    (h : l.Represents (b :: rest)) :
    ∃ i node addrs, l.first = some i ∧ l.heap[i]? = some node ∧ node.val = b ∧
      l.heap.Chain node.next addrs ∧ i ∉ addrs ∧ addrs.map l.heap.val? = rest.map some := by
  obtain ⟨addrs, hchain, hvals⟩ := h
  have hnodup := hchain.nodup
  generalize hfirst : l.first = p at hchain
  cases hchain with
  | nil => simp at hvals
  | @cons i node addrs hnode hrest =>
    simp only [List.map_cons, List.cons.injEq] at hvals
    obtain ⟨hb, hvals⟩ := hvals
    exact ⟨i, node, addrs, rfl, hnode, by simpa [Heap.val?, hnode] using hb, hrest,
      (List.nodup_cons.mp hnodup).1, hvals⟩

/-- On an empty list the draining loop ends. -/
theorem Represents.drainRound_nil {l : DataBufferList} (h : l.Represents [])
    (outcome : WriteOutcome) : l.first = none ∧ l.drainRound outcome = .drained := by
  obtain ⟨addrs, hchain, hvals⟩ := h
  obtain rfl : addrs = [] := by simpa using hvals
  generalize hfirst : l.first = p at hchain
  cases hchain
  exact ⟨rfl, by rw [drainRound, hfirst]⟩

/-- A first buffer with nothing left is unlinked. -/
theorem Represents.drainRound_empty {l : DataBufferList} {b : DataBuffer}
    {rest : List DataBuffer} (h : l.Represents (b :: rest)) (hb : b.pending = [])
    (outcome : WriteOutcome) :
    ∃ l', l.drainRound outcome = .unlinked l' ∧ l'.Represents rest := by
  obtain ⟨i, node, addrs, hfirst, hnode, rfl, hrest, _, hvals⟩ := h.exists_node
  have hlength := length_pending node.val
  rw [hb, List.length_nil] at hlength
  refine ⟨{ l with first := node.next }, ?_, addrs, hrest, hvals⟩
  simp only [drainRound, hfirst, hnode]
  rw [if_neg (by omega)]

/-- A first buffer with bytes left has all of them offered to `write`; what is
accepted moves its read offset, and a refusal changes nothing. -/
theorem Represents.drainRound_pending {l : DataBufferList} {b : DataBuffer}
    {rest : List DataBuffer} (h : l.Represents (b :: rest)) (hb : b.pending ≠ [])
    (outcome : WriteOutcome) :
    ∃ l', l.drainRound outcome = .wrote b.pending l' ∧ l'.first = l.first ∧
      (∀ n, outcome = .accept n → l'.Represents
        ({ b with rOffset := b.rOffset + min n b.pending.length } :: rest)) ∧
      ((∀ n, outcome ≠ .accept n) → l' = l) := by
  obtain ⟨i, node, addrs, hfirst, hnode, rfl, hrest, hi, hvals⟩ := h.exists_node
  have hlength := length_pending node.val
  have hpos : 0 < node.val.wOffset - node.val.rOffset := by
    rw [← hlength]
    exact List.length_pos_iff.mpr hb
  cases outcome with
  | accept n =>
    let f : DataBuffer → DataBuffer := fun b =>
      { b with rOffset := b.rOffset + min n node.val.pending.length }
    refine ⟨{ l with heap := l.heap.modifyVal i f }, ?_, rfl, ?_, fun hne => absurd rfl (hne n)⟩
    · simp only [drainRound, hfirst, hnode]
      rw [if_pos hpos]
    · intro k hk
      obtain rfl : n = k := by simpa using hk
      have hmodified : (l.heap.modifyVal i f)[i]? = some { node with val := f node.val } := by
        simp [Heap.getElem?_modifyVal, hnode]
      have hothers : addrs.map (l.heap.modifyVal i f).val? = rest.map some := by
        rw [← hvals]
        refine List.map_congr_left fun j hj => ?_
        have hij : i ≠ j := fun heq => hi (heq ▸ hj)
        rw [Heap.val?_modifyVal, if_neg hij]
      refine ⟨i :: addrs, ?_, ?_⟩
      · rw [hfirst]
        exact .cons hmodified (hrest.modifyVal i f)
      · rw [List.map_cons, List.map_cons, hothers, Heap.val?, hmodified]
        rfl
  | wouldBlock | hardError =>
    refine ⟨l, ?_, rfl, fun n hn => by simp at hn, fun _ => rfl⟩
    simp only [drainRound, hfirst, hnode]
    rw [if_pos hpos]

/-- **One round of draining.** A list holding `bs` is found empty, loses an empty
buffer, or offers a nonempty front part of `bs`, of which exactly the accepted bytes
leave it. -/
theorem Holds.drainRound_cases {l : DataBufferList} {k : ℕ} {bs : Bytes} (h : l.Holds k bs)
    (outcome : WriteOutcome) :
    (l.drainRound outcome = .drained ∧ l.first = none ∧ bs = []) ∨
    (∃ l' k', l.drainRound outcome = .unlinked l' ∧ l'.Holds k' bs ∧ k = k' + 1) ∨
    (∃ offered l', l.drainRound outcome = .wrote offered l' ∧ offered ≠ [] ∧ offered <+: bs ∧
      l.first ≠ none ∧
      (∀ n, outcome = .accept n → l'.Holds k (bs.drop (min n offered.length))) ∧
      ((∀ n, outcome ≠ .accept n) → l' = l)) := by
  obtain ⟨buffers, hbuffers, rfl, hordered, rfl⟩ := h
  cases buffers with
  | nil =>
    obtain ⟨hfirst, hround⟩ := hbuffers.drainRound_nil outcome
    exact Or.inl ⟨hround, hfirst, rfl⟩
  | cons b rest =>
    have hrest : ∀ b ∈ rest, b.Ordered := fun c hc => hordered c (by simp [hc])
    by_cases hb : b.pending = []
    · obtain ⟨l', hround, hl'⟩ := hbuffers.drainRound_empty hb outcome
      exact Or.inr (Or.inl ⟨l', _, hround, ⟨rest, hl', rfl, hrest, by simp [hb]⟩, rfl⟩)
    · obtain ⟨l', hround, hfirst, haccept, hrefuse⟩ := hbuffers.drainRound_pending hb outcome
      obtain ⟨i, _, _, hi, _⟩ := hbuffers.exists_node
      refine Or.inr (Or.inr ⟨b.pending, l', hround, hb, ?_, by simp [hi], ?_, hrefuse⟩)
      · exact ⟨rest.flatMap DataBuffer.pending, by simp⟩
      · intro n hn
        refine ⟨_, haccept n hn, by simp, ?_, ?_⟩
        · intro c hc
          rcases List.mem_cons.mp hc with rfl | hc
          · have hob := hordered b (by simp)
            have hlength := length_pending b
            simp only [DataBuffer.Ordered, DataBuffer.wOffset] at hob hlength ⊢
            omega
          · exact hrest c hc
        · rw [List.flatMap_cons, List.flatMap_cons,
            List.drop_append_of_le_length (by omega)]
          simp [DataBuffer.pending, List.drop_drop]

/-- The bytes that a round offers do not depend on what `write` does with them. -/
theorem drainRound_wrote {l l' : DataBufferList} {outcome : WriteOutcome} {offered : Bytes}
    (h : l.drainRound outcome = .wrote offered l') (outcome' : WriteOutcome) :
    ∃ l'', l.drainRound outcome' = .wrote offered l'' := by
  unfold drainRound at h ⊢
  split at h
  · simp at h
  · split at h
    · simp at h
    · split at h
      · rename_i hpos
        simp only [if_pos hpos]
        cases outcome <;> cases outcome' <;> simp_all
      · simp at h

end DataBufferList

end Khttp
