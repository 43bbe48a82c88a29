import Mathlib.Data.List.Basic
import Mathlib.Data.List.Nodup
import Mathlib.Data.Fintype.Card
import Mathlib.Tactic.Common

/-!
# Intrusive singly linked lists

Nodes live in a heap and link to each other by their `next` pointer, the null
pointer being `none`. The operations follow the pointers as the usual list macros
do, so that a cyclic chain is representable: a walk that does not end has no
result. `Chain` says which addresses a finite chain visits; the operations on a
chain are then list operations on its addresses.
-/

namespace Khttp.Lib

/-- A node of an intrusive list: its payload and its `next` pointer. -/
structure Node (α : Type*) where
  /-- The fields other than the link. -/
  val : α
  /-- The link, `none` for the null pointer. -/
  next : Option ℕ
  deriving DecidableEq, Repr

/-- The nodes allocated so far; an address is a position. A node that is unlinked
and freed stays behind unreachable, so that addresses are never reused. -/
abbrev Heap (α : Type*) := List (Node α)

namespace Heap

variable {α : Type*}

/-- Allocation of an unlinked node. -/
def alloc (h : Heap α) (a : α) : Heap α × ℕ := (h ++ [⟨a, none⟩], h.length)

/-- Assignment to a `next` field. -/
def setNext (h : Heap α) (i : ℕ) (p : Option ℕ) : Heap α :=
  h.modify i fun node => { node with next := p }

/-- An update of a node's payload. -/
def modifyVal (h : Heap α) (i : ℕ) (f : α → α) : Heap α :=
  h.modify i fun node => { node with val := f node.val }

/-- The payload at an address. -/
def val? (h : Heap α) (i : ℕ) : Option α := (h[i]?).map Node.val

/-- The link at an address. -/
def next? (h : Heap α) (i : ℕ) : Option (Option ℕ) := (h[i]?).map Node.next

/-- The walk to the node whose `next` is null. The fuel bounds the steps of the
walk; without a result the walk runs in a cycle or off the heap. -/
def lastFrom (h : Heap α) : ℕ → ℕ → Option ℕ
  | 0, _ => none
  | fuel + 1, i =>
    match h[i]? with
    | none => none
    | some node =>
      match node.next with
      | none => some i
      | some j => lastFrom h fuel j

/-- Concatenation of two lists by their heads: the last node of the first is linked
to the second. -/
def concat (h : Heap α) (head₁ head₂ : Option ℕ) : Option (Heap α × Option ℕ) :=
  match head₁ with
  | none => some (h, head₂)
  | some i => (lastFrom h h.length i).map fun tail => (setNext h tail head₂, some i)

/-- Appending one node at the end of a list. -/
def append (h : Heap α) (head : Option ℕ) (add : ℕ) : Option (Heap α × Option ℕ) :=
  concat (setNext h add none) head (some add)

/-- The chain from a pointer visits exactly these addresses and ends. -/
inductive Chain (h : Heap α) : Option ℕ → List ℕ → Prop
  | nil : Chain h none []
  | cons {i : ℕ} {node : Node α} {l : List ℕ} : h[i]? = some node →
      Chain h node.next l → Chain h (some i) (i :: l)

/-- A chain starts at its pointer. -/
theorem Chain.head?_eq {h : Heap α} {p : Option ℕ} {l : List ℕ} (hl : Chain h p l) :
    l.head? = p := by
  cases hl <;> rfl

/-- A pointer starts at most one finite chain. -/
theorem Chain.unique {h : Heap α} {p : Option ℕ} {l l' : List ℕ}
    (hl : Chain h p l) (hl' : Chain h p l') : l = l' := by
  induction hl generalizing l' with
  | nil => cases hl'; rfl
  | cons hnode _ ih =>
    cases hl' with
    | cons hnode' hrest =>
      obtain rfl := Option.some.inj (hnode.symm.trans hnode')
      rw [ih hrest]

/-- The part of a chain from one of its addresses on is a chain. -/
theorem Chain.suffix {h : Heap α} {p : Option ℕ} {l₁ l₂ : List ℕ} {i : ℕ}
    (hl : Chain h p (l₁ ++ i :: l₂)) : Chain h (some i) (i :: l₂) := by
  induction l₁ generalizing p with
  | nil =>
    cases hl with
    | cons hnode hrest => exact .cons hnode hrest
  | cons j l₁ ih =>
    cases hl with
    | cons _ hrest => exact ih hrest

/-- A finite chain visits no address twice. -/
theorem Chain.nodup {h : Heap α} {p : Option ℕ} {l : List ℕ} (hl : Chain h p l) :
    l.Nodup := by
  induction hl with
  | nil => exact List.nodup_nil
  | @cons i node l hnode hrest ih =>
    refine List.nodup_cons.mpr ⟨fun hmem => ?_, ih⟩
    obtain ⟨l₁, l₂, rfl⟩ := List.append_of_mem hmem
    have heq := (Chain.cons hnode hrest).unique hrest.suffix
    have hlength := congrArg List.length heq
    simp only [List.length_cons, List.length_append] at hlength
    omega

/-- A chain stays inside the heap. -/
theorem Chain.lt_length {h : Heap α} {p : Option ℕ} {l : List ℕ} (hl : Chain h p l) :
    ∀ i ∈ l, i < h.length := by
  induction hl with
  | nil => simp
  | cons hnode _ ih =>
    intro i hi
    rcases List.mem_cons.mp hi with rfl | hi
    · exact (List.getElem?_eq_some_iff.mp hnode).1
    · exact ih i hi

/-- A chain is no longer than the heap, which is the fuel that walks get. -/
theorem Chain.length_le {h : Heap α} {p : Option ℕ} {l : List ℕ} (hl : Chain h p l) :
    l.length ≤ h.length := by
  have hsubset : l.toFinset ⊆ Finset.range h.length := by
    intro i hi
    exact Finset.mem_range.mpr (hl.lt_length i (List.mem_toFinset.mp hi))
  have hcard := Finset.card_le_card hsubset
  rwa [List.toFinset_card_of_nodup hl.nodup, Finset.card_range] at hcard

/-- The walk along a finite chain ends at its last address. -/
theorem Chain.lastFrom_eq {h : Heap α} {p : Option ℕ} {l : List ℕ} (hl : Chain h p l)
    {i fuel : ℕ} (hp : p = some i) (hfuel : l.length ≤ fuel) :
    lastFrom h fuel i = l.getLast? := by
  induction hl generalizing i fuel with
  | nil => simp at hp
  | @cons j node l hnode hrest ih =>
    obtain rfl := Option.some.inj hp
    obtain ⟨fuel, rfl⟩ := Nat.exists_eq_succ_of_ne_zero
      (show fuel ≠ 0 by simp only [List.length_cons] at hfuel; omega)
    simp only [lastFrom, hnode]
    generalize node.next = q at hrest ih
    cases hrest with
    | nil => rfl
    | @cons k node' l hnode' hrest' =>
      rw [List.getLast?_cons_cons]
      exact ih rfl (by simp only [List.length_cons] at hfuel ⊢; omega)

/-- A chain depends only on the links of the nodes it visits. -/
theorem Chain.congr {h h' : Heap α} {p : Option ℕ} {l : List ℕ} (hl : Chain h p l)
    (hlinks : ∀ i ∈ l, h'.next? i = h.next? i) : Chain h' p l := by
  induction hl with
  | nil => exact .nil
  | @cons i node l hnode _ ih =>
    have hi := hlinks i (by simp)
    rw [next?, next?, hnode] at hi
    obtain ⟨node', hnode', hnext⟩ := Option.map_eq_some_iff.mp hi
    refine .cons hnode' ?_
    rw [hnext]
    exact ih fun j hj => hlinks j (by simp [hj])

@[simp] theorem length_setNext (h : Heap α) (i : ℕ) (p : Option ℕ) :
    (h.setNext i p).length = h.length := List.length_modify _ _ _

@[simp] theorem length_modifyVal (h : Heap α) (i : ℕ) (f : α → α) :
    (h.modifyVal i f).length = h.length := List.length_modify _ _ _

/-- Reading a heap after an assignment to a link. -/
theorem getElem?_setNext (h : Heap α) (i j : ℕ) (p : Option ℕ) :
    (h.setNext i p)[j]? =
      (h[j]?).map fun node => if i = j then { node with next := p } else node := by
  rw [setNext, List.getElem?_modify]
  rfl

/-- Reading a heap after an update of a payload. -/
theorem getElem?_modifyVal (h : Heap α) (i j : ℕ) (f : α → α) :
    (h.modifyVal i f)[j]? =
      (h[j]?).map fun node => if i = j then { node with val := f node.val } else node := by
  rw [modifyVal, List.getElem?_modify]
  rfl

/-- Assigning a link changes that link only. -/
theorem next?_setNext_of_ne (h : Heap α) {i j : ℕ} (hij : i ≠ j) (p : Option ℕ) :
    (h.setNext i p).next? j = h.next? j := by
  simp [next?, getElem?_setNext, hij]

@[simp] theorem val?_setNext (h : Heap α) (i j : ℕ) (p : Option ℕ) :
    (h.setNext i p).val? j = h.val? j := by
  rw [val?, val?, getElem?_setNext, Option.map_map]
  refine Option.map_congr fun node _ => ?_
  by_cases hij : i = j <;> simp [hij]

@[simp] theorem next?_modifyVal (h : Heap α) (i j : ℕ) (f : α → α) :
    (h.modifyVal i f).next? j = h.next? j := by
  rw [next?, next?, getElem?_modifyVal, Option.map_map]
  refine Option.map_congr fun node _ => ?_
  by_cases hij : i = j <;> simp [hij]

/-- Updating a payload changes that payload only. -/
theorem val?_modifyVal (h : Heap α) (i j : ℕ) (f : α → α) :
    (h.modifyVal i f).val? j = if i = j then (h.val? j).map f else h.val? j := by
  by_cases hij : i = j <;> simp [val?, getElem?_modifyVal, hij, Function.comp_def]

/-- Allocation changes no node that is already there. -/
theorem getElem?_alloc (h : Heap α) (a : α) {i : ℕ} (hi : i < h.length) :
    (h.alloc a).1[i]? = h[i]? := List.getElem?_append_left hi

/-- An update of payloads leaves every chain as it is. -/
theorem Chain.modifyVal {h : Heap α} {p : Option ℕ} {l : List ℕ} (hl : Chain h p l)
    (i : ℕ) (f : α → α) : Chain (h.modifyVal i f) p l :=
  hl.congr fun j _ => next?_modifyVal h i j f

/-- Assigning the link of an address outside a chain leaves the chain as it is. -/
theorem Chain.setNext_of_notMem {h : Heap α} {p : Option ℕ} {l : List ℕ} (hl : Chain h p l)
    {i : ℕ} (hi : i ∉ l) (q : Option ℕ) : Chain (h.setNext i q) p l := by
  refine hl.congr fun j hj => ?_
  have hij : i ≠ j := fun heq => hi (heq ▸ hj)
  exact next?_setNext_of_ne h hij q

/-- Allocation leaves every chain as it is. -/
theorem Chain.alloc {h : Heap α} {p : Option ℕ} {l : List ℕ} (hl : Chain h p l) (a : α) :
    Chain (h.alloc a).1 p l := by
  refine hl.congr fun j hj => ?_
  rw [next?, next?, getElem?_alloc h a (hl.lt_length j hj)]

/-- A chain whose end is replaced from one of its addresses on. -/
theorem Chain.splice {h h' : Heap α} {p : Option ℕ} {l₁ l₂ l₂' : List ℕ} {i : ℕ}
    (hl : Chain h p (l₁ ++ i :: l₂)) (hi : Chain h' (some i) (i :: l₂'))
    (hlinks : ∀ j ∈ l₁, h'.next? j = h.next? j) : Chain h' p (l₁ ++ i :: l₂') := by
  induction l₁ generalizing p with
  | nil =>
    cases hl with
    | cons _ _ => exact hi
  | cons j l₁ ih =>
    cases hl with
    | @cons _ node _ hnode hrest =>
      have hj := hlinks j (by simp)
      rw [next?, next?, hnode] at hj
      obtain ⟨node', hnode', hnext⟩ := Option.map_eq_some_iff.mp hj
      refine .cons hnode' ?_
      rw [hnext]
      exact ih hrest fun k hk => hlinks k (by simp [hk])

/-- Linking the end of one chain to the head of a disjoint one joins their addresses. -/
theorem Chain.setNext_last {h : Heap α} {p q : Option ℕ} {l₁ l₂ : List ℕ} {tail : ℕ}
    (h₁ : Chain h p (l₁ ++ [tail])) (h₂ : Chain h q l₂) (htail : tail ∉ l₂) :
    Chain (h.setNext tail q) p (l₁ ++ tail :: l₂) := by
  induction l₁ generalizing p with
  | nil =>
    cases h₁ with
    | @cons _ node _ hnode _ =>
      have hlinked : (h.setNext tail q)[tail]? = some { node with next := q } := by
        simp [getElem?_setNext, hnode]
      exact .cons hlinked (h₂.setNext_of_notMem htail q)
  | cons i l₁ ih =>
    have hnodup := h₁.nodup
    cases h₁ with
    | @cons _ node _ hnode hrest =>
      have hi : tail ≠ i := by
        rintro rfl
        simp at hnodup
      have hkept : (h.setNext tail q)[i]? = some node := by
        simp [getElem?_setNext, hnode, hi]
      exact .cons hkept (ih hrest)

/-- Concatenation of two disjoint finite chains ends, and its chain visits the
addresses of the first and then those of the second. -/
theorem Chain.concat {h : Heap α} {i : ℕ} {q : Option ℕ} {l₁ l₂ : List ℕ}
    (h₁ : Chain h (some i) l₁) (h₂ : Chain h q l₂) (hdisjoint : ∀ j ∈ l₁, j ∉ l₂) :
    ∃ tail ∈ l₁, Heap.concat h (some i) q = some (h.setNext tail q, some i) ∧
      Chain (h.setNext tail q) (some i) (l₁ ++ l₂) := by
  obtain ⟨front, tail, rfl⟩ : ∃ front tail, l₁ = front ++ [tail] := by
    rcases List.eq_nil_or_concat l₁ with rfl | ⟨front, tail, hl₁⟩
    · cases h₁
    · exact ⟨front, tail, by rw [hl₁, List.concat_eq_append]⟩
  have hlast := h₁.lastFrom_eq rfl h₁.length_le
  rw [List.getLast?_append_of_ne_nil _ (by simp)] at hlast
  refine ⟨tail, by simp, ?_, ?_⟩
  · simp [Heap.concat, hlast]
  · rw [List.append_assoc]
    exact h₁.setNext_last h₂ (hdisjoint tail (by simp))

/-- A newly allocated node appended to a finite chain becomes its last address. -/
theorem Chain.append_alloc {h : Heap α} {i : ℕ} {l : List ℕ} (hl : Chain h (some i) l) (a : α) :
    ∃ h', (h.alloc a).1.append (some i) (h.alloc a).2 = some (h', some i) ∧
      Chain h' (some i) (l ++ [h.length]) ∧ h'.length = h.length + 1 ∧
      (∀ j < h.length, h'.val? j = h.val? j) ∧ h'.val? h.length = some a ∧
      (∀ j < h.length, j ∉ l → h'.next? j = h.next? j) := by
  let h₁ := (h.alloc a).1.setNext h.length none
  have hfresh : h.length ∉ l := fun hmem => absurd (hl.lt_length _ hmem) (by omega)
  have hnode : h₁[h.length]? = some ⟨a, none⟩ := by
    rw [getElem?_setNext]
    simp [Heap.alloc]
  have hchain : Chain h₁ (some i) l := (hl.alloc a).setNext_of_notMem hfresh none
  have hadded : Chain h₁ (some h.length) [h.length] := .cons hnode .nil
  obtain ⟨tail, htail, hconcat, hjoined⟩ := hchain.concat hadded
    (fun j hj => by
      have := hl.lt_length j hj
      simp only [List.mem_singleton]
      omega)
  refine ⟨h₁.setNext tail (some h.length), hconcat, hjoined, ?_, fun j hj => ?_, ?_,
    fun j hj hjl => ?_⟩
  · simp [h₁, Heap.alloc]
  · rw [val?_setNext, val?_setNext, val?, val?, getElem?_alloc h a hj]
  · rw [val?_setNext, val?, hnode]
    rfl
  · have htailj : tail ≠ j := fun heq => hjl (heq ▸ htail)
    rw [next?_setNext_of_ne _ htailj, next?_setNext_of_ne _ (by omega), next?, next?,
      getElem?_alloc h a hj]

/-- After the end of a chain is linked somewhere, the old addresses still come first. -/
theorem Chain.of_setNext_last {h : Heap α} {p q : Option ℕ} {l₁ l : List ℕ} {tail : ℕ}
    (hold : Chain h p (l₁ ++ [tail])) (hnew : Chain (h.setNext tail q) p l) :
    ∃ l', l = l₁ ++ tail :: l' ∧ Chain (h.setNext tail q) q l' := by
  induction l₁ generalizing p l with
  | nil =>
    cases hold with
    | @cons _ node _ hnode _ =>
      cases hnew with
      | @cons _ node' l' hnode' hrest =>
        obtain rfl : { node with next := q } = node' := by
          simpa [getElem?_setNext, hnode] using hnode'
        exact ⟨l', rfl, hrest⟩
  | cons i l₁ ih =>
    have hnodup := hold.nodup
    cases hold with
    | @cons _ node _ hnode hrest =>
      have hi : tail ≠ i := by
        rintro rfl
        simp at hnodup
      cases hnew with
      | @cons _ node' m hnode' hrest' =>
        obtain rfl : node = node' := by simpa [getElem?_setNext, hnode, hi] using hnode'
        obtain ⟨l', rfl, hl'⟩ := ih hrest hrest'
        exact ⟨l', rfl, hl'⟩

/-- Linking the end of a chain to one of its own addresses makes a chain that does not end. -/
theorem Chain.not_setNext_last {h : Heap α} {p : Option ℕ} {l₁ l₂ : List ℕ} {i tail : ℕ}
    (hold : Chain h p (l₁ ++ (l₂ ++ [tail]))) (hi : (l₂ ++ [tail]).head? = some i) (l : List ℕ) :
    ¬Chain (h.setNext tail (some i)) p l := by
  intro hnew
  have hsuffix : Chain h (some i) (l₂ ++ [tail]) := by
    obtain ⟨rest, hrest⟩ := List.head?_eq_some_iff.mp hi
    rw [hrest] at hold ⊢
    exact hold.suffix
  rw [← List.append_assoc] at hold
  obtain ⟨l', _, hloop⟩ := hold.of_setNext_last hnew
  obtain ⟨l'', rfl, hagain⟩ := hsuffix.of_setNext_last hloop
  have hlength := congrArg List.length (hloop.unique hagain)
  simp only [List.length_append, List.length_cons] at hlength
  omega

end Heap

end Khttp.Lib
