import Khttp.Http
import Khttp.Lib.Machine

/-!
# The announced length and the bytes sent

`http_response_write` announces the length of a body through a variable of 32 bits and
`http_body_writeto_fd` sends the body itself. The header that announces it can also be lost
again: `http_header_list_remove` erases by positions that it took before the first erasure,
so that of several entries of a name the later ones shift the erasure to their neighbours.
-/

namespace Khttp

open Lib

/-- The header announces the length of the body. -/
def HttpHeader.isContentLength (header : HttpHeader) : Bool :=
  cstr header.name == cstr headerContentLength

/-- Removing the entries of a name erases neither past the end of the list nor the header that
announces the length: the entry before which `j` others were erased takes the `j`-th element
after itself with it. -/
def RemovalSpares (list : List HttpHeader) (name : Bytes) : Prop :=
  ∀ j position, (httpHeaderListGetall list name)[j]? = some position →
    position + j < list.length ∧ position + j ≠ list.findIdx HttpHeader.isContentLength

/-- Erasing an element that does not have a property keeps those that have it. -/
theorem filter_eraseIdx {α : Type*} {p : α → Bool} {l : List α} {i : ℕ} {a : α}
    (hi : l[i]? = some a) (ha : p a = false) : (l.eraseIdx i).filter p = l.filter p := by
  obtain ⟨hlt, rfl⟩ := List.getElem?_eq_some_iff.mp hi
  conv_rhs => rw [← List.take_append_drop i l, List.drop_eq_getElem_cons hlt]
  rw [List.eraseIdx_eq_take_drop_succ, List.filter_append, List.filter_append,
    List.filter_cons_of_neg (by simp [ha])]

/-- Erasing the only element that has a property leaves none. -/
theorem filter_eraseIdx_only {α : Type*} {p : α → Bool} {l : List α} {i : ℕ} {a : α}
    (hi : l[i]? = some a) (honly : l.filter p = [a]) (ha : p a = true) :
    (l.eraseIdx i).filter p = [] := by
  obtain ⟨hlt, rfl⟩ := List.getElem?_eq_some_iff.mp hi
  have hcut : l.filter p = (l.take i).filter p ++ l[i] :: (l.drop (i + 1)).filter p := by
    conv_lhs => rw [← List.take_append_drop i l, List.drop_eq_getElem_cons hlt]
    rw [List.filter_append, List.filter_cons_of_pos ha]
  have hlength := congrArg List.length (hcut.symm.trans honly)
  simp only [List.length_append, List.length_cons, List.length_nil] at hlength
  rw [List.eraseIdx_eq_take_drop_succ, List.filter_append, List.append_eq_nil_iff]
  exact ⟨List.length_eq_zero_iff.mp (by omega), List.length_eq_zero_iff.mp (by omega)⟩

/-- Only one position holds the only element that has a property. -/
theorem getElem?_only {α : Type*} {p : α → Bool} {l : List α} {i j : ℕ} {a b : α}
    (honly : l.filter p = [a]) (hi : l[i]? = some a) (ha : p a = true) (hj : l[j]? = some b)
    (hb : p b = true) : i = j := by
  by_contra hne
  have hkept := filter_eraseIdx_only hi honly ha
  have hmem : b ∈ l.eraseIdx i := by
    rw [List.mem_eraseIdx_iff_getElem?]
    exact ⟨j, fun heq => hne heq.symm, hj⟩
  have hfilter : b ∈ (l.eraseIdx i).filter p := List.mem_filter.mpr ⟨hmem, hb⟩
  simp [hkept] at hfilter

/-- Erasures in turn bring no element with a property in. -/
theorem filter_foldlM_erase_nil {p : HttpHeader → Bool} {positions : List ℕ}
    {l r : List HttpHeader} (hl : l.filter p = [])
    (herase : positions.foldlM utarrayErase l = some r) : r.filter p = [] := by
  induction positions generalizing l with
  | nil =>
    obtain rfl := Option.some.inj herase
    exact hl
  | cons i positions ih =>
    rw [List.foldlM_cons, Option.bind_eq_bind, Option.bind_eq_some_iff] at herase
    obtain ⟨m, hm, herase⟩ := herase
    obtain ⟨_, hm⟩ := Option.ite_none_right_eq_some.mp hm
    obtain rfl := Option.some.inj hm
    have hsublist := (List.eraseIdx_sublist l i).filter p
    rw [hl] at hsublist
    exact ih (List.sublist_nil.mp hsublist) herase

/-- Erasures in turn stay inside the list where the positions do. -/
theorem exists_foldlM_erase_iff {positions : List ℕ} {l : List HttpHeader} :
    (∃ r, positions.foldlM utarrayErase l = some r) ↔
      ∀ j position, positions[j]? = some position → position + j < l.length := by
  induction positions generalizing l with
  | nil => simp [List.foldlM_nil]
  | cons i positions ih =>
    have hstep : (∃ r, (i :: positions).foldlM utarrayErase l = some r) ↔
        i < l.length ∧ ∃ r, positions.foldlM utarrayErase (l.eraseIdx i) = some r := by
      by_cases hi : i < l.length <;> simp [List.foldlM_cons, utarrayErase, hi]
    rw [hstep]
    constructor
    · rintro ⟨hi, hrest⟩ j position hj
      have hinside := ih.mp hrest
      cases j with
      | zero =>
        obtain rfl : i = position := by simpa using hj
        exact hi
      | succ j =>
        have hlt := hinside j position (by simpa using hj)
        rw [List.length_eraseIdx_of_lt hi] at hlt
        omega
    · intro hall
      have hi : i < l.length := hall 0 i (by simp)
      refine ⟨hi, ih.mpr fun j position hj => ?_⟩
      have hlt := hall (j + 1) position (by simpa using hj)
      rw [List.length_eraseIdx_of_lt hi]
      omega

/-- Erasures in turn at increasing positions keep the only element that has a property unless
one of them hits its place. -/
theorem filter_foldlM_erase_iff {p : HttpHeader → Bool} {positions : List ℕ}
    {l r : List HttpHeader} {c : ℕ} {a : HttpHeader} (hc : l[c]? = some a)
    (honly : l.filter p = [a]) (ha : p a = true) (hsorted : positions.Pairwise (· < ·))
    (herase : positions.foldlM utarrayErase l = some r) :
    (r.filter p = [a] ∧ ∀ j position, positions[j]? = some position → position + j ≠ c) ∨
    (r.filter p = [] ∧ ∃ j position, positions[j]? = some position ∧ position + j = c) := by
  induction positions generalizing l c with
  | nil =>
    obtain rfl := Option.some.inj herase
    exact Or.inl ⟨honly, by simp⟩
  | cons i positions ih =>
    rw [List.foldlM_cons, Option.bind_eq_bind, Option.bind_eq_some_iff] at herase
    obtain ⟨m, hm, herase⟩ := herase
    obtain ⟨hi, hm⟩ := Option.ite_none_right_eq_some.mp hm
    obtain rfl := Option.some.inj hm
    obtain ⟨hbelow, hsorted⟩ := List.pairwise_cons.mp hsorted
    by_cases heq : i = c
    · have hnone := filter_eraseIdx_only (heq ▸ hc) honly ha
      exact Or.inr ⟨filter_foldlM_erase_nil hnone herase, 0, i, by simp, by omega⟩
    · have hother : p l[i] = false := by
        by_contra htrue
        exact heq (getElem?_only honly hc ha (List.getElem?_eq_getElem hi)
          (by simpa using htrue)).symm
      have hkept := filter_eraseIdx (List.getElem?_eq_getElem hi) hother
      have hplace : (l.eraseIdx i)[if i < c then c - 1 else c]? = some a := by
        rw [List.getElem?_eraseIdx]
        split
        · rw [if_neg (by omega), Nat.sub_add_cancel (by omega)]
          exact hc
        · rw [if_pos (by omega)]
          exact hc
      rcases ih hplace (hkept.trans honly) hsorted herase with
        ⟨hfilter, hmiss⟩ | ⟨hfilter, j, position, hj, hhit⟩
      · refine Or.inl ⟨hfilter, fun j position hj => ?_⟩
        cases j with
        | zero =>
          obtain rfl : i = position := by simpa using hj
          omega
        | succ j =>
          have hj : positions[j]? = some position := by simpa using hj
          have hlt := hbelow position (List.mem_of_getElem? hj)
          have hne := hmiss j position hj
          split at hne <;> omega
      · have hlt := hbelow position (List.mem_of_getElem? hj)
        refine Or.inr ⟨hfilter, j + 1, position, by simpa using hj, ?_⟩
        split at hhit <;> omega

/-- A position of the only element that has a property. -/
theorem exists_getElem?_only {α : Type*} {p : α → Bool} {l : List α} {a : α}
    (honly : l.filter p = [a]) : l[l.findIdx p]? = some a ∧ p a = true := by
  have hmem : a ∈ l.filter p := by simp [honly]
  obtain ⟨hin, ha⟩ := List.mem_filter.mp hmem
  have hlt : l.findIdx p < l.length := List.findIdx_lt_length_of_exists ⟨a, hin, ha⟩
  have hfound : l[l.findIdx p] ∈ l.filter p :=
    List.mem_filter.mpr ⟨List.getElem_mem hlt, List.findIdx_getElem⟩
  rw [honly, List.mem_singleton] at hfound
  rw [List.getElem?_eq_getElem hlt, hfound]
  exact ⟨rfl, ha⟩

/-- The positions of the entries of a name. -/
theorem getElem_httpHeaderListGetall {list : List HttpHeader} {name : Bytes} {position : ℕ}
    (h : position ∈ httpHeaderListGetall list name) :
    ∃ header, list[position]? = some header ∧ cstr header.name = cstr name := by
  obtain ⟨hlt, hname⟩ := List.mem_findIdxs_iff_exists_getElem_pos.mp h
  exact ⟨list[position], List.getElem?_eq_getElem hlt, by simpa using hname⟩

/-- Entries that stand alone are removed without harm to the others. -/
theorem httpHeaderListRemove_only {list : List HttpHeader} {name : Bytes}
    (hcount : (list.countP fun elem => cstr elem.name == cstr name) ≤ 1) :
    httpHeaderListRemove list name =
      some (list.filter fun elem => !(cstr elem.name == cstr name)) := by
  have hlength : (httpHeaderListGetall list name).length ≤ 1 := by
    rw [httpHeaderListGetall, List.length_findIdxs]
    exact hcount
  unfold httpHeaderListRemove
  rcases Nat.le_one_iff_eq_zero_or_eq_one.mp hlength with hzero | hone
  · have hnone := List.length_eq_zero_iff.mp hzero
    have hall := List.findIdxs_eq_nil_iff.mp hnone
    rw [hnone, List.foldlM_nil, List.filter_eq_self.mpr fun elem helem => by simp [hall elem helem]]
    rfl
  · obtain ⟨position, hposition⟩ := List.length_eq_one_iff.mp hone
    have hentry : position ∈ httpHeaderListGetall list name := by simp [hposition]
    obtain ⟨header, hheader, hname⟩ := getElem_httpHeaderListGetall hentry
    have hlt := (List.getElem?_eq_some_iff.mp hheader).1
    have hthis : (cstr header.name == cstr name) = true := by simpa using hname
    have hcountOne : (list.filter fun elem => cstr elem.name == cstr name).length = 1 := by
      rw [← List.countP_eq_length_filter, ← List.length_findIdxs (s := 0)]
      exact hone
    obtain ⟨only, honly⟩ := List.length_eq_one_iff.mp hcountOne
    have hmem : header ∈ list.filter fun elem => cstr elem.name == cstr name :=
      List.mem_filter.mpr ⟨List.mem_of_getElem? hheader, hthis⟩
    obtain rfl : header = only := by simpa [honly] using hmem
    have hrest := filter_eraseIdx_only hheader honly hthis
    have hkept := filter_eraseIdx (p := fun elem => !(cstr elem.name == cstr name)) hheader
      (by simpa using hname)
    have hself : (list.eraseIdx position).filter (fun elem => !(cstr elem.name == cstr name)) =
        list.eraseIdx position := by
      rw [List.filter_eq_self]
      intro elem helem
      simpa using List.filter_eq_nil_iff.mp hrest elem helem
    rw [hposition, List.foldlM_cons, utarrayErase, if_pos hlt, ← hkept, hself]
    rfl

/-- A name with at most one entry is removed without harm to the header that announces the
length. -/
theorem removalSpares_of_countP_le_one {list : List HttpHeader} {name : Bytes}
    (hne : cstr name ≠ cstr headerContentLength)
    (hcount : (list.countP fun elem => cstr elem.name == cstr name) ≤ 1) :
    RemovalSpares list name := by
  intro j position hj
  have hlength : (httpHeaderListGetall list name).length ≤ 1 := by
    rw [httpHeaderListGetall, List.length_findIdxs]
    exact hcount
  have hlt := (List.getElem?_eq_some_iff.mp hj).1
  obtain ⟨header, hheader, hname⟩ := getElem_httpHeaderListGetall (List.mem_of_getElem? hj)
  obtain ⟨hin, hget⟩ := List.getElem?_eq_some_iff.mp hheader
  refine ⟨by omega, fun heq => ?_⟩
  have hfound : list[position].isContentLength := by
    have hfirst : list.findIdx HttpHeader.isContentLength = position := by omega
    subst hfirst
    exact List.findIdx_getElem
  rw [hget, HttpHeader.isContentLength, beq_iff_eq] at hfound
  exact hne (hname.symm.trans hfound)

/-- The removal of a name leaves the header that announces the length exactly where it spares
it. -/
theorem httpHeaderListRemove_iff {list : List HttpHeader} {name : Bytes} {a : HttpHeader}
    (honly : list.filter HttpHeader.isContentLength = [a]) :
    (∃ r, httpHeaderListRemove list name = some r ∧
      r.filter HttpHeader.isContentLength ≠ []) ↔ RemovalSpares list name := by
  obtain ⟨hc, ha⟩ := exists_getElem?_only honly
  have hsorted : (httpHeaderListGetall list name).Pairwise (· < ·) := List.pairwise_findIdxs
  constructor
  · rintro ⟨r, hr, hkept⟩ j position hj
    refine ⟨exists_foldlM_erase_iff.mp ⟨r, hr⟩ j position hj, ?_⟩
    rcases filter_foldlM_erase_iff hc honly ha hsorted hr with ⟨_, hmiss⟩ | ⟨hnone, _⟩
    · exact hmiss j position hj
    · exact absurd hnone hkept
  · intro hspares
    obtain ⟨r, hr⟩ := exists_foldlM_erase_iff.mpr fun j position hj => (hspares j position hj).1
    refine ⟨r, hr, ?_⟩
    rcases filter_foldlM_erase_iff hc honly ha hsorted hr with
      ⟨hkept, _⟩ | ⟨_, j, position, hj, hhit⟩
    · simp [hkept]
    · exact absurd hhit (hspares j position hj).2

/-- The removal of a name changes nothing about the header that announces the length, or
loses it. -/
theorem filter_httpHeaderListRemove {list r : List HttpHeader} {name : Bytes} {a : HttpHeader}
    (honly : list.filter HttpHeader.isContentLength = [a])
    (hr : httpHeaderListRemove list name = some r) :
    r.filter HttpHeader.isContentLength = [a] ∨ r.filter HttpHeader.isContentLength = [] := by
  obtain ⟨hc, ha⟩ := exists_getElem?_only honly
  exact (filter_foldlM_erase_iff hc honly ha List.pairwise_findIdxs hr).imp And.left And.left

/-- The header list of `http_response_write` before it adds the date, where at most one entry
announced a length before. -/
def announced (resp : HttpResponse) : List HttpHeader :=
  let headers := (resp.headers.filter fun header => !header.isContentLength) ++
    [lengthHeader resp]
  (httpHeaderListGet headers headerContentType).elim
    (headers ++ [httpHeaderNew headerContentType defaultContentType]) fun _ => headers

/-- Neither the removal of the date nor that of the server erases the header that announces
the length. -/
def KeepsLength (date : Bytes) (resp : HttpResponse) : Prop :=
  RemovalSpares (announced resp) headerDate ∧
    ∀ dated, httpHeaderListAdd (announced resp) (httpHeaderNew headerDate date) true = some dated →
      RemovalSpares dated headerServer

/-- `http_response_write` makes a head with exactly one header that announces a length, and
the decimal number in it is that of the bytes sent. -/
def AnnouncesLength (date : Bytes) (resp : HttpResponse) (sent : Bytes) : Prop :=
  ∃ resp' start header, httpResponseWrite date resp =
      some (resp', some (start ++ resp'.headers.flatMap headerLine ++ ascii "\r\n")) ∧
    resp'.headers.filter HttpHeader.isContentLength = [header] ∧
    decimalValue (header.content.getD []) = sent.length

/-- The header list is made from the announced one by two removals. -/
theorem httpResponseHeaders_eq {date : Bytes} {resp : HttpResponse} (hcode : resp.resp.code ≠ 100)
    (hchunked : resp.bodyChunked = false)
    (hcount : resp.headers.countP HttpHeader.isContentLength ≤ 1) :
    httpResponseHeaders date resp =
      (httpHeaderListAdd (announced resp) (httpHeaderNew headerDate date) true).bind fun dated =>
        httpHeaderListAdd dated (httpHeaderNew headerServer serverName) true := by
  have hname : (lengthHeader resp).name = headerContentLength := by
    rw [lengthHeader, hchunked]
    exact (by decide : cstr headerContentLength = headerContentLength)
  have hlength : httpHeaderListAdd resp.headers (lengthHeader resp) true =
      some ((resp.headers.filter fun header => !header.isContentLength) ++
        [lengthHeader resp]) := by
    rw [httpHeaderListAdd, if_pos rfl, hname, httpHeaderListRemove_only hcount]
    rfl
  rw [httpResponseHeaders, if_pos hcode, hlength]
  simp only [Option.bind_eq_bind, Option.bind_some, announced]
  cases httpHeaderListGet ((resp.headers.filter fun header => !header.isContentLength) ++
    [lengthHeader resp]) headerContentType with
  | none => simp [httpHeaderListAdd]
  | some _ => simp

/-- The announced list has exactly one header that announces the length, and the number in it
is the length of the body modulo 2^32. -/
theorem filter_announced {resp : HttpResponse} (hchunked : resp.bodyChunked = false) :
    (announced resp).filter HttpHeader.isContentLength = [lengthHeader resp] ∧
      decimalValue ((lengthHeader resp).content.getD []) = resp.body.len % 2 ^ 32 := by
  have hlength : (lengthHeader resp).isContentLength = true := by
    rw [lengthHeader, hchunked]
    exact (by decide : (cstr (cstr headerContentLength) == cstr headerContentLength) = true)
  have htype : (httpHeaderNew headerContentType defaultContentType).isContentLength = false := by
    decide
  constructor
  · have hothers : (resp.headers.filter fun header => !header.isContentLength).filter
        HttpHeader.isContentLength = [] := by
      simp
    simp only [announced]
    cases httpHeaderListGet ((resp.headers.filter fun header => !header.isContentLength) ++
      [lengthHeader resp]) headerContentType with
    | none =>
      simp only [Option.elim_none, List.filter_append, hothers]
      simp [hlength, htype]
    | some _ =>
      simp only [Option.elim_some, List.filter_append, hothers]
      simp [hlength]
  · rw [lengthHeader, hchunked]
    simp only [Bool.false_eq_true, if_false, httpHeaderNew, httpHeaderAppendContent,
      Option.getD_some,
      Option.getD_none]
    rw [cstr_of_zero_notMem (zero_notMem_decimal _)]
    exact decimalValue_decimal _

/-- Adding another header in place of its name keeps the header that announces the length
exactly where the removal spares it. -/
theorem httpHeaderListAdd_iff {list : List HttpHeader} {header a : HttpHeader}
    (honly : list.filter HttpHeader.isContentLength = [a])
    (hother : header.isContentLength = false) :
    (∃ r, httpHeaderListAdd list header true = some r ∧
      r.filter HttpHeader.isContentLength ≠ []) ↔ RemovalSpares list header.name := by
  rw [← httpHeaderListRemove_iff honly]
  constructor
  · rintro ⟨r, hr, hkept⟩
    obtain ⟨removed, hremoved, rfl⟩ := Option.map_eq_some_iff.mp hr
    refine ⟨removed, hremoved, ?_⟩
    simpa [List.filter_append, hother] using hkept
  · rintro ⟨removed, hremoved, hkept⟩
    refine ⟨removed ++ [header], by rw [httpHeaderListAdd, if_pos rfl, hremoved]; rfl, ?_⟩
    simpa [List.filter_append, hother] using hkept

/-- Adding another header in place of its name keeps the header that announces the length, or
loses it. -/
theorem filter_httpHeaderListAdd {list r : List HttpHeader} {header a : HttpHeader}
    (honly : list.filter HttpHeader.isContentLength = [a] ∨
      list.filter HttpHeader.isContentLength = [])
    (hother : header.isContentLength = false) (hr : httpHeaderListAdd list header true = some r) :
    r.filter HttpHeader.isContentLength = [a] ∨ r.filter HttpHeader.isContentLength = [] := by
  obtain ⟨removed, hremoved, rfl⟩ := Option.map_eq_some_iff.mp hr
  have hlist : (removed ++ [header]).filter HttpHeader.isContentLength =
      removed.filter HttpHeader.isContentLength := by
    simp [List.filter_append, hother]
  rw [hlist]
  rcases honly with honly | hnone
  · exact filter_httpHeaderListRemove honly hremoved
  · exact Or.inr (filter_foldlM_erase_nil hnone hremoved)

/-- The date is no header that announces a length. -/
theorem isContentLength_date (date : Bytes) :
    (httpHeaderNew headerDate date).isContentLength = false :=
  (by decide : (cstr (cstr headerDate) == cstr headerContentLength) = false)

/-- The server identifier is no header that announces a length. -/
theorem isContentLength_server : (httpHeaderNew headerServer serverName).isContentLength = false :=
  (by decide : (cstr (cstr headerServer) == cstr headerContentLength) = false)

/-- The list that is printed announces the length once or not at all. -/
theorem filter_httpResponseHeaders {date : Bytes} {resp : HttpResponse} {headers : List HttpHeader}
    (hcode : resp.resp.code ≠ 100) (hchunked : resp.bodyChunked = false)
    (hcount : resp.headers.countP HttpHeader.isContentLength ≤ 1)
    (h : httpResponseHeaders date resp = some headers) :
    headers.filter HttpHeader.isContentLength = [lengthHeader resp] ∨
      headers.filter HttpHeader.isContentLength = [] := by
  rw [httpResponseHeaders_eq hcode hchunked hcount] at h
  obtain ⟨dated, hdated, hlast⟩ := Option.bind_eq_some_iff.mp h
  have hfirst := filter_httpHeaderListAdd (Or.inl (filter_announced hchunked).1)
    (isContentLength_date date) hdated
  exact filter_httpHeaderListAdd hfirst isContentLength_server hlast

/-- The list that is printed announces one length exactly where both removals spare it. -/
theorem filter_httpResponseHeaders_iff {date : Bytes} {resp : HttpResponse}
    (hcode : resp.resp.code ≠ 100) (hchunked : resp.bodyChunked = false)
    (hcount : resp.headers.countP HttpHeader.isContentLength ≤ 1) :
    (∃ headers, httpResponseHeaders date resp = some headers ∧
      headers.filter HttpHeader.isContentLength = [lengthHeader resp]) ↔ KeepsLength date resp := by
  have hdate := isContentLength_date date
  have hserver := isContentLength_server
  have hdateName : (httpHeaderNew headerDate date).name = headerDate :=
    (by decide : cstr headerDate = headerDate)
  have hserverName : (httpHeaderNew headerServer serverName).name = headerServer :=
    (by decide : cstr headerServer = headerServer)
  obtain ⟨honly, _⟩ := filter_announced hchunked
  have hfirst := httpHeaderListAdd_iff honly hdate
  rw [hdateName] at hfirst
  rw [httpResponseHeaders_eq hcode hchunked hcount, KeepsLength, ← hfirst]
  constructor
  · rintro ⟨headers, hheaders, hkept⟩
    obtain ⟨dated, hdated, hlast⟩ := Option.bind_eq_some_iff.mp hheaders
    rcases filter_httpHeaderListAdd (Or.inl honly) hdate hdated with hone | hnone
    · refine ⟨⟨dated, hdated, by simp [hone]⟩, fun other hsome => ?_⟩
      obtain rfl := Option.some.inj (hdated.symm.trans hsome)
      rw [← hserverName, ← httpHeaderListAdd_iff hone hserver]
      exact ⟨headers, hlast, by simp [hkept]⟩
    · obtain ⟨removed, hremoved, rfl⟩ := Option.map_eq_some_iff.mp hlast
      rw [List.filter_append, filter_foldlM_erase_nil hnone hremoved, List.filter_singleton,
        hserver] at hkept
      simp at hkept
  · rintro ⟨⟨dated, hdated, hne⟩, hspares⟩
    have hone := (filter_httpHeaderListAdd (Or.inl honly) hdate hdated).resolve_right hne
    have hthen := hspares dated hdated
    rw [← hserverName, ← httpHeaderListAdd_iff hone hserver] at hthen
    obtain ⟨headers, hlast, hkept⟩ := hthen
    refine ⟨headers, by rw [hdated]; exact hlast, ?_⟩
    exact (filter_httpHeaderListAdd (Or.inl hone) hserver hlast).resolve_right hkept

/-- A body on its way to a descriptor. -/
structure BodyTransfer where
  /-- The body. -/
  body : HttpBody
  /-- The bytes that the descriptor accepted. -/
  sent : Bytes
  /-- What the last call returned, if no call is under way. -/
  returned : Option HttpBodyWriteResult
  deriving DecidableEq, Repr

/-- What happens to a body on its way. -/
inductive TransferAction where
  /-- One round of the loop of a call. -/
  | round (write : WriteOutcome) (read : ReadOutcome) (errnoAgain : Bool)
  /-- The next call. -/
  | call
  deriving DecidableEq, Repr

/-- A step of the transfer. As the file is unchanged, `fread` reaches no early end of it. -/
def BodyTransfer.step (s : BodyTransfer) : TransferAction → Option BodyTransfer
  | .round write read errnoAgain =>
    if s.returned = none ∧ s.body.HasData ∧ (read = .full ∨ read = .failed) then
      match s.body.round write read errnoAgain with
      | .returned => some { s with returned := some .done }
      | .wrote offered body result =>
        some ⟨body, s.sent ++ offered.take (body.rOffset - s.body.rOffset),
          if result = .more then none else some result⟩
      | .noRead result => some { s with returned := some result }
    else none
  | .call =>
    if s.returned ≠ none ∧ s.returned ≠ some .done then some { s with returned := none } else none

/-- Calls of `http_body_writeto_fd` for a body until one returns `HBWRITE_DONE`. -/
def bodyTransfer (body : HttpBody) : Machine BodyTransfer TransferAction where
  init := ⟨body, [], none⟩
  step := BodyTransfer.step

/-- What was sent and what remains are the bytes of the body, and nothing remains when the
transfer is done. -/
structure BodyTransfer.Sends (s : BodyTransfer) (bytes : Bytes) : Prop where
  /-- The bytes are split in two. -/
  split : s.sent ++ s.body.remaining = bytes
  /-- The end of the transfer. -/
  done : s.returned = some .done → s.body.remaining = []

/-- A round moves a front part of what remains to the descriptor. -/
theorem BodyTransfer.Sends.offer {s : BodyTransfer} {bytes offered : Bytes}
    (h : s.Sends bytes) (hoffered : offered <+: s.body.remaining) (n : ℕ)
    {returned : Option HttpBodyWriteResult} (hreturned : returned ≠ some .done) :
    BodyTransfer.Sends ⟨{ s.body with rOffset := s.body.rOffset + min n offered.length },
      s.sent ++ offered.take (min n offered.length), returned⟩ bytes where
  split := by
    rw [HttpBody.remaining_advance, HttpBody.take_min_length hoffered, List.append_assoc,
      List.take_append_drop]
    exact h.split
  done hdone := absurd hdone hreturned

/-- A step of the transfer keeps the two parts of the body. -/
theorem BodyTransfer.Sends.step {s t : BodyTransfer} {a : TransferAction} {bytes : Bytes}
    (h : s.Sends bytes) (hstep : s.step a = some t) : t.Sends bytes := by
  cases a with
  | call =>
    obtain ⟨_, heq⟩ := Option.ite_none_right_eq_some.mp hstep
    obtain rfl := Option.some.inj heq
    exact ⟨h.split, by simp⟩
  | round write read errnoAgain =>
    obtain ⟨⟨hnone, _, hread⟩, heq⟩ := Option.ite_none_right_eq_some.mp hstep
    by_cases hremaining : s.body.remaining = []
    · rw [HttpBody.round_of_remaining_nil hremaining] at heq
      obtain rfl := Option.some.inj heq
      exact ⟨h.split, fun _ => hremaining⟩
    · have hkept (result : HttpBodyWriteResult) (hresult : result ≠ .done) :
          BodyTransfer.Sends { s with returned := some result } bytes :=
        ⟨h.split, fun hdone => absurd (Option.some.inj hdone) hresult⟩
      have hlong : ∀ k, read ≠ .short k := by
        rcases hread with rfl | rfl <;> simp
      rcases HttpBody.round_cases_more hremaining write hlong errnoAgain with
        ⟨offered, hround, _, hoffered⟩ | ⟨hround, _⟩
      · rw [hround] at heq
        cases write with
        | accept n =>
          obtain rfl := Option.some.inj heq
          simp only [Nat.add_sub_cancel_left]
          exact h.offer hoffered n (by simp)
        | wouldBlock | hardError =>
          obtain rfl := Option.some.inj heq
          simpa [hnone] using hkept _ (by simp)
      · rw [hround] at heq
        obtain rfl := Option.some.inj heq
        apply hkept
        unfold HttpBody.failure
        split <;> simp

/-- A transfer that is done has sent the bytes of the body. -/
theorem sent_eq_bytes {body : HttpBody} {rounds : List TransferAction} {s : BodyTransfer}
    (hstart : body.rOffset = 0) (hrun : (bodyTransfer body).run rounds = some s)
    (hdone : s.returned = some .done) : s.sent = body.bytes := by
  have hinit : BodyTransfer.Sends ⟨body, [], none⟩ body.bytes :=
    ⟨by simp [HttpBody.remaining, hstart], by simp⟩
  have hsends := (bodyTransfer body).invariant_of_step
    (fun s a t (h : s.Sends body.bytes) hstep => h.step hstep) hinit hrun
  simpa [hsends.done hdone] using hsends.split

/-- Every body that has data can be sent to its end. -/
theorem exists_runFrom_done (body : HttpBody) {s : BodyTransfer} (hdata : s.body.HasData)
    (hnone : s.returned = none) :
    ∃ rounds t, (bodyTransfer body).runFrom s rounds = some t ∧ t.returned = some .done := by
  induction hlength : s.body.remaining.length using Nat.strong_induction_on generalizing s with
  | _ length ih =>
    let a := TransferAction.round (.accept HttpBody.bufferLen) .full false
    by_cases hremaining : s.body.remaining = []
    · refine ⟨[a], { s with returned := some .done }, ?_, rfl⟩
      rw [Machine.runFrom_cons]
      refine ⟨_, ?_, rfl⟩
      change s.step a = _
      rw [BodyTransfer.step, if_pos ⟨hnone, hdata, Or.inl rfl⟩,
        HttpBody.round_of_remaining_nil hremaining]
    · obtain ⟨offered, hround, hoffered, _⟩ :=
        HttpBody.round_full hremaining (.accept HttpBody.bufferLen) false
      let n := min HttpBody.bufferLen offered.length
      have hpositive : 0 < n := by
        have hlt := List.length_pos_iff.mpr hoffered
        have hbuffer : 0 < HttpBody.bufferLen := by decide
        omega
      let t : BodyTransfer := ⟨{ s.body with rOffset := s.body.rOffset + n },
        s.sent ++ offered.take n, none⟩
      have hstep : (bodyTransfer body).step s a = some t := by
        change s.step a = _
        rw [BodyTransfer.step, if_pos ⟨hnone, hdata, Or.inl rfl⟩, hround]
        simp [HttpBody.offer, t, n]
      have hless : t.body.remaining.length < length := by
        have hlt := List.length_pos_iff.mpr hremaining
        simp only [t, HttpBody.remaining_advance, List.length_drop]
        omega
      obtain ⟨rounds, last, hrun, hdone⟩ := ih _ hless (s := t) hdata rfl rfl
      exact ⟨a :: rounds, last, (Machine.runFrom_cons _).mpr ⟨t, hstep, hrun⟩, hdone⟩

/-- The head announces a body that is sent whole exactly where the length of the body fits
into 32 bits and the announcing header is kept. -/
theorem announcesLength_bytes_iff {date : Bytes} {resp : HttpResponse}
    (hcode : resp.resp.code ≠ 100) (hchunked : resp.bodyChunked = false)
    (hcount : resp.headers.countP HttpHeader.isContentLength ≤ 1)
    (hstatus : resp.sendStatus = .sendResponseLine ∨ resp.sendStatus = .sendHeaders) :
    AnnouncesLength date resp resp.body.bytes ↔
      resp.body.len < 2 ^ 32 ∧ KeepsLength date resp := by
  obtain ⟨honly, hvalue⟩ := filter_announced hchunked
  have hwrite : httpResponseWrite date resp = (httpResponseHeaders date resp).bind fun headers =>
      some ({ resp with headers, sendStatus := .sendBody },
        some ((if resp.sendStatus = .sendResponseLine then statusLine resp.resp else []) ++
          headers.flatMap headerLine ++ ascii "\r\n")) := by
    rcases hstatus with hstatus | hstatus <;> rw [httpResponseWrite, hstatus] <;> rfl
  rw [← filter_httpResponseHeaders_iff hcode hchunked hcount, AnnouncesLength, hwrite]
  constructor
  · rintro ⟨resp', start, header, hmade, hfilter, hlength⟩
    obtain ⟨headers, hheaders, heq⟩ := Option.bind_eq_some_iff.mp hmade
    simp only [Option.some.injEq, Prod.mk.injEq] at heq
    obtain ⟨rfl, _⟩ := heq
    have hone : headers.filter HttpHeader.isContentLength = [lengthHeader resp] := by
      rcases filter_httpResponseHeaders hcode hchunked hcount hheaders with hone | hnone
      · exact hone
      · simp [hnone] at hfilter
    have hheader : header = lengthHeader resp := by
      simpa [hone] using hfilter.symm
    rw [hheader, hvalue] at hlength
    have hlen : resp.body.len = resp.body.bytes.length := rfl
    exact ⟨by omega, headers, hheaders, hone⟩
  · rintro ⟨hsmall, headers, hheaders, hfilter⟩
    refine ⟨{ resp with headers, sendStatus := .sendBody },
      if resp.sendStatus = .sendResponseLine then statusLine resp.resp else [],
      lengthHeader resp, ?_, hfilter, ?_⟩
    · rw [hheaders]
      rfl
    · rw [hvalue, Nat.mod_eq_of_lt hsmall]
      rfl

/-- Without a second date or server header in the list, the header that announces the length
is kept. -/
theorem keepsLength_of_countP_le_one {date : Bytes} {resp : HttpResponse}
    (hchunked : resp.bodyChunked = false)
    (hdate : (resp.headers.countP fun elem => cstr elem.name == cstr headerDate) ≤ 1)
    (hserver : (resp.headers.countP fun elem => cstr elem.name == cstr headerServer) ≤ 1) :
    KeepsLength date resp := by
  have hcount {name : Bytes} (hlength : cstr name ≠ cstr headerContentLength)
      (htype : cstr name ≠ cstr headerContentType)
      (hname : (resp.headers.countP fun elem => cstr elem.name == cstr name) ≤ 1) :
      ((announced resp).countP fun elem => cstr elem.name == cstr name) ≤ 1 := by
    have hothers : ((resp.headers.filter fun header => !header.isContentLength).countP
        fun elem => cstr elem.name == cstr name) ≤ 1 :=
      (List.filter_sublist.countP_le).trans hname
    have hheader : (cstr (lengthHeader resp).name == cstr name) = false := by
      have hthis : (lengthHeader resp).name = cstr headerContentLength := by
        rw [lengthHeader, hchunked]
        rfl
      rw [hthis, cstr_cstr, beq_eq_false_iff_ne]
      exact hlength.symm
    have hdefault : (cstr (httpHeaderNew headerContentType defaultContentType).name ==
        cstr name) = false := by
      have hthis : (httpHeaderNew headerContentType defaultContentType).name =
        cstr headerContentType := rfl
      rw [hthis, cstr_cstr, beq_eq_false_iff_ne]
      exact htype.symm
    simp only [announced]
    cases httpHeaderListGet ((resp.headers.filter fun header => !header.isContentLength) ++
      [lengthHeader resp]) headerContentType with
    | none => simpa [List.countP_append, List.countP_cons, hheader, hdefault] using hothers
    | some _ => simpa [List.countP_append, List.countP_cons, hheader] using hothers
  refine ⟨removalSpares_of_countP_le_one (by decide) (hcount (by decide) (by decide) hdate), ?_⟩
  intro dated hdated
  obtain ⟨removed, hremoved, rfl⟩ := Option.map_eq_some_iff.mp hdated
  have hname : (httpHeaderNew headerDate date).name = headerDate :=
    (by decide : cstr headerDate = headerDate)
  rw [hname, httpHeaderListRemove_only (hcount (by decide) (by decide) hdate)] at hremoved
  obtain rfl := Option.some.inj hremoved
  apply removalSpares_of_countP_le_one (by decide)
  have hother : (cstr (httpHeaderNew headerDate date).name == cstr headerServer) = false := by
    rw [hname]
    decide
  rw [List.countP_append, List.countP_singleton, hother]
  exact (List.filter_sublist.countP_le).trans (hcount (by decide) (by decide) hserver)

/-- The head announces the number of bytes that are sent by the time the transfer is done
exactly where the body has fewer than 2^32 bytes and the announcing header is kept. -/
theorem announcesLength_iff {date : Bytes} {resp : HttpResponse} {rounds : List TransferAction}
    {s : BodyTransfer} (hcode : resp.resp.code ≠ 100) (hchunked : resp.bodyChunked = false)
    (hcount : resp.headers.countP HttpHeader.isContentLength ≤ 1)
    (hstatus : resp.sendStatus = .sendResponseLine ∨ resp.sendStatus = .sendHeaders)
    (hstart : resp.body.rOffset = 0) (hrun : (bodyTransfer resp.body).run rounds = some s)
    (hdone : s.returned = some .done) :
    AnnouncesLength date resp s.sent ↔ resp.body.len < 2 ^ 32 ∧ KeepsLength date resp := by
  rw [sent_eq_bytes hstart hrun hdone]
  exact announcesLength_bytes_iff hcode hchunked hcount hstatus

/-- A response with an entry of its own for the length and a body of two bytes, sent byte by
byte. -/
theorem announcesLength_small :
    AnnouncesLength [] ⟨httpResponseLineNew 200, [⟨ascii "Content-Length", some (ascii "7")⟩],
      false, .new .bodyString (some (ascii "ok")), .sendResponseLine⟩ (ascii "ok") := by
  have hrun : (bodyTransfer (.new .bodyString (some (ascii "ok")))).run
      [.round (.accept 1) .full false, .round .wouldBlock .full false, .call,
        .round (.accept 1) .full false, .round (.accept 1) .full false] =
      some ⟨⟨.bodyString, 2, some (ascii "ok")⟩, ascii "ok", some .done⟩ := by
    decide
  have hkeeps : KeepsLength [] ⟨httpResponseLineNew 200,
      [⟨ascii "Content-Length", some (ascii "7")⟩], false,
      .new .bodyString (some (ascii "ok")), .sendResponseLine⟩ :=
    keepsLength_of_countP_le_one rfl (by decide) (by decide)
  exact (announcesLength_iff (by decide) rfl (by decide) (Or.inl rfl) rfl hrun rfl).mpr
    ⟨by decide, hkeeps⟩

/-- A response whose body is a file of 4 GiB. -/
def largeResponse : HttpResponse :=
  { httpResponseNew (httpResponseLineNew 200) with
    body := .new .bodyFile (some (List.replicate (2 ^ 32) 0)) }

/-- The file of 4 GiB is sent to its end after a head that does not announce its length. -/
theorem not_announcesLength_large :
    ∃ rounds s, (bodyTransfer largeResponse.body).run rounds = some s ∧
      s.returned = some .done ∧ ¬AnnouncesLength [] largeResponse s.sent := by
  have hdata : largeResponse.body.HasData := Or.inr (Option.some_ne_none _)
  obtain ⟨rounds, s, hrun, hdone⟩ := exists_runFrom_done largeResponse.body
    (s := ⟨largeResponse.body, [], none⟩) hdata rfl
  refine ⟨rounds, s, hrun, hdone, ?_⟩
  rw [sent_eq_bytes rfl hrun hdone, announcesLength_bytes_iff (by decide) rfl (by decide)
    (Or.inl rfl)]
  rintro ⟨hsmall, _⟩
  have hlength : largeResponse.body.len = 2 ^ 32 := List.length_replicate
  omega

end Khttp
