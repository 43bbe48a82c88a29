import Khttp.ContentLength

/-!
# What removing a header leaves

`http_header_list_remove` takes pointers to all the entries of a name before it erases the first
of them. Each erasure moves the entries behind it, so that the second pointer already leads to the
entry after the one it was taken for: the second entry of a name stays.
-/

namespace Khttp

/-- The entry has this name. -/
def HttpHeader.hasName (name : Bytes) (elem : HttpHeader) : Bool := cstr elem.name == cstr name

/-- Removing a name filters the list, and replacing an entry of that name leaves the new one as
the only one of its name, behind all the others. -/
structure RemovesName (list : List HttpHeader) (name : Bytes) : Prop where
  /-- Exactly the entries of other names are left, in their old order. -/
  remove : httpHeaderListRemove list name = some (list.filter fun elem => !elem.hasName name)
  /-- The new entry is the only one of its name and the last, and the others are unchanged. -/
  replace : ∀ header : HttpHeader, cstr header.name = cstr name →
    ∃ r, httpHeaderListAdd list header true = some r ∧ r.filter (·.hasName name) = [header] ∧
      r.getLast? = some header ∧
      (r.filter fun elem => !elem.hasName name) = list.filter fun elem => !elem.hasName name

/-- Erasures at later positions leave an entry where it is. -/
theorem getElem?_foldlM_erase {positions : List ℕ} {list r : List HttpHeader} {i : ℕ}
    (hlater : ∀ position ∈ positions, i < position)
    (hr : positions.foldlM utarrayErase list = some r) : r[i]? = list[i]? := by
  induction positions generalizing list with
  | nil =>
    obtain rfl : list = r := by simpa using hr
    rfl
  | cons position positions ih =>
    obtain ⟨erased, herase, hrest⟩ := Option.bind_eq_some_iff.mp hr
    obtain ⟨_, heq⟩ := Option.ite_none_right_eq_some.mp herase
    obtain rfl := Option.some.inj heq
    have hkept := ih (fun p hp => hlater p (List.mem_cons_of_mem _ hp)) hrest
    rw [hkept, List.getElem?_eraseIdx_of_lt (hlater position List.mem_cons_self)]

/-- The second entry of a name moves one place up and is never erased. -/
theorem second_mem_httpHeaderListRemove {list r : List HttpHeader} {name : Bytes}
    {first second : ℕ} {rest : List ℕ}
    (hall : httpHeaderListGetall list name = first :: second :: rest)
    (hr : httpHeaderListRemove list name = some r) : ∃ elem ∈ r, elem.hasName name = true := by
  have hsorted : (httpHeaderListGetall list name).Pairwise (· < ·) := List.pairwise_findIdxs
  rw [hall, List.pairwise_cons, List.pairwise_cons] at hsorted
  obtain ⟨hfirst, hsecond, _⟩ := hsorted
  have hlt : first < second := hfirst second List.mem_cons_self
  obtain ⟨elem, helem, hname⟩ :=
    @getElem_httpHeaderListGetall list name second (by simp [hall])
  rw [httpHeaderListRemove, hall, List.foldlM_cons] at hr
  obtain ⟨erased, herase, hrest⟩ := Option.bind_eq_some_iff.mp hr
  obtain ⟨_, heq⟩ := Option.ite_none_right_eq_some.mp herase
  obtain rfl := Option.some.inj heq
  have hlater : ∀ position ∈ second :: rest, second - 1 < position := by
    intro position hmem
    rcases List.mem_cons.mp hmem with rfl | hmem
    · omega
    · have hgt := hsecond position hmem
      omega
  have hkept := getElem?_foldlM_erase hlater hrest
  have hmoved : (list.eraseIdx first)[second - 1]? = some elem := by
    rw [List.getElem?_eraseIdx_of_ge (by omega), Nat.sub_add_cancel (by omega)]
    exact helem
  refine ⟨elem, List.mem_of_getElem? (hkept.trans hmoved), ?_⟩
  simpa [HttpHeader.hasName] using hname

/-- Removing a name filters the list exactly where at most one entry has it. -/
theorem httpHeaderListRemove_eq_filter_iff {list : List HttpHeader} {name : Bytes} :
    httpHeaderListRemove list name = some (list.filter fun elem => !elem.hasName name) ↔
      list.countP (·.hasName name) ≤ 1 := by
  constructor
  · intro hr
    by_contra hmany
    have hlength : (httpHeaderListGetall list name).length = list.countP (·.hasName name) :=
      List.length_findIdxs
    match hall : httpHeaderListGetall list name with
    | [] =>
      rw [hall, List.length_nil] at hlength
      omega
    | [position] =>
      rw [hall, List.length_singleton] at hlength
      omega
    | first :: second :: rest =>
      obtain ⟨elem, hmem, hname⟩ := second_mem_httpHeaderListRemove hall hr
      simp [hname] at hmem
  · exact httpHeaderListRemove_only

/-- Removing and replacing work exactly where at most one entry has the name. -/
theorem removesName_iff (list : List HttpHeader) (name : Bytes) :
    RemovesName list name ↔ list.countP (·.hasName name) ≤ 1 := by
  rw [← httpHeaderListRemove_eq_filter_iff]
  constructor
  · exact RemovesName.remove
  · intro hremove
    refine ⟨hremove, fun header hname => ?_⟩
    have hsame : httpHeaderListRemove list header.name = httpHeaderListRemove list name := by
      rw [httpHeaderListRemove, httpHeaderListGetall, hname]
      rfl
    have hthis : header.hasName name = true := by simp [HttpHeader.hasName, hname]
    refine ⟨_, by rw [httpHeaderListAdd, if_pos rfl, hsame, hremove]; rfl, ?_, ?_, ?_⟩
    · simp [hthis]
    · simp
    · simp [hthis]

/-- A list with two entries of one name and another one behind them. -/
def repeatedHeaders : List HttpHeader :=
  [httpHeaderNew (ascii "Via") (some (ascii "a")), httpHeaderNew (ascii "Via") (some (ascii "b")),
    httpHeaderNew (ascii "Host") (some (ascii "c"))]

/-- The second entry of the name stays, and the entry behind it goes. -/
theorem not_removesName_repeated : ¬RemovesName repeatedHeaders (ascii "Via") := by
  intro h
  have hremove := h.remove
  revert hremove
  decide

end Khttp
