import Mathlib.Data.List.Infix
import Mathlib.Tactic.Common

/-!
# Filling in a template

A page is made of pieces: text that came from the template and text that was filled in. What is
searched for is found in the text of the template only. The page is filled in one occurrence at a
time, or in one pass; the result is the same.
-/

namespace Khttp.Lib

variable {α : Type*}

/-- A piece of a page. -/
inductive Piece (α : Type*) where
  /-- Text of the template. -/
  | raw (text : List α)
  /-- Text that was filled in. -/
  | filled (text : List α)
  deriving DecidableEq, Repr

/-- The text of a piece. -/
def Piece.text : Piece α → List α
  | .raw text => text
  | .filled text => text

/-- The text of a page. -/
def pageText (page : List (Piece α)) : List α := page.flatMap Piece.text

/-- Some text of the template that stands at a place of a page. -/
def FromTemplate (search : List α) : ℕ → List (Piece α) → Prop
  | _, [] => False
  | pos, .filled text :: page => text.length ≤ pos ∧ FromTemplate search (pos - text.length) page
  | pos, .raw text :: page =>
    search <+: text.drop pos ∨
      (text.length ≤ pos ∧ FromTemplate search (pos - text.length) page)

variable [DecidableEq α]

/-- The place of the first occurrence of one text in another. -/
def occurrence (search : List α) : List α → Option ℕ
  | [] => if search = [] then some 0 else none
  | a :: rest =>
    if search.isPrefixOf (a :: rest) then some 0 else (occurrence search rest).map (· + 1)

/-- The place of the first occurrence in the text of the template. -/
def place (search : List α) : List (Piece α) → Option ℕ
  | [] => none
  | .filled text :: page => (place search page).map (text.length + ·)
  | .raw text :: page => (occurrence search text).or ((place search page).map (text.length + ·))

/-- The page with the first occurrence in the text of the template filled in. -/
def fillNext (search replacement : List α) : List (Piece α) → List (Piece α)
  | [] => []
  | .filled text :: page => .filled text :: fillNext search replacement page
  | .raw text :: page =>
    match occurrence search text with
    | some pos =>
      .raw (text.take pos) :: .filled replacement :: .raw (text.drop (pos + search.length)) :: page
    | none => .raw text :: fillNext search replacement page

/-- A text of the template with up to so many occurrences filled in. -/
def fillRaw (search replacement : List α) : ℕ → List α → List (Piece α)
  | 0, text => [.raw text]
  | count + 1, text =>
    match occurrence search text with
    | some pos =>
      .raw (text.take pos) :: .filled replacement ::
        fillRaw search replacement count (text.drop (pos + search.length))
    | none => [.raw text]

/-- The page with all leftmost, non-overlapping occurrences in the text of the template filled in,
in one pass. -/
def fillAll (search replacement : List α) (page : List (Piece α)) : List (Piece α) :=
  page.flatMap fun
    | .raw text => fillRaw search replacement text.length text
    | .filled text => [.filled text]

/-- A text with all leftmost, non-overlapping occurrences replaced, letter by letter. The number
says how many letters belong to the occurrence that was replaced last. -/
def replaceAll (search replacement : List α) : ℕ → List α → List α
  | _, [] => []
  | skip + 1, _ :: rest => replaceAll search replacement skip rest
  | 0, a :: rest =>
    if search.isPrefixOf (a :: rest) then
      replacement ++ replaceAll search replacement (search.length - 1) rest
    else a :: replaceAll search replacement 0 rest

variable {search replacement text : List α} {page : List (Piece α)} {pos : ℕ}

/-! ### The first occurrence -/

/-- The text stands where it occurs. -/
theorem prefix_of_occurrence (h : occurrence search text = some pos) :
    search <+: text.drop pos := by
  induction text generalizing pos with
  | nil =>
    obtain ⟨rfl, -⟩ : search = [] ∧ 0 = pos := by simpa [occurrence] using h
    exact List.nil_prefix
  | cons a rest ih =>
    rw [occurrence] at h
    split at h
    · next hstarts =>
      obtain rfl := Option.some.inj h
      simpa using hstarts
    · obtain ⟨before, hbefore, rfl⟩ := Option.map_eq_some_iff.mp h
      simpa using ih hbefore

/-- No occurrence comes before the first one. -/
theorem exists_occurrence_le (h : search <+: text.drop pos) :
    ∃ first ≤ pos, occurrence search text = some first := by
  induction text generalizing pos with
  | nil =>
    have hempty : search = [] := by simpa using h
    exact ⟨0, Nat.zero_le _, by simp [occurrence, hempty]⟩
  | cons a rest ih =>
    rw [occurrence]
    split
    · exact ⟨0, Nat.zero_le _, rfl⟩
    · next hstarts =>
      cases pos with
      | zero => exact absurd (List.isPrefixOf_iff_prefix.mpr (by simpa using h)) hstarts
      | succ pos =>
        obtain ⟨first, hle, hfirst⟩ := ih (by simpa using h)
        exact ⟨first + 1, by omega, by rw [hfirst]; rfl⟩

/-- There is room for a text where it occurs. -/
theorem add_length_le_of_occurrence (hsearch : search ≠ [])
    (h : occurrence search text = some pos) : pos + search.length ≤ text.length := by
  have hlength := (prefix_of_occurrence h).length_le
  have hpos := List.length_pos_of_ne_nil hsearch
  rw [List.length_drop] at hlength
  omega

/-- A text is what comes before its first occurrence, the occurrence and the rest. -/
theorem take_append_occurrence (h : occurrence search text = some pos) :
    text.take pos ++ search ++ text.drop (pos + search.length) = text := by
  obtain ⟨rest, hrest⟩ := prefix_of_occurrence h
  have hdrop : text.drop (pos + search.length) = rest := by
    rw [← List.drop_drop, ← hrest, List.drop_left]
  rw [hdrop, List.append_assoc, hrest, List.take_append_drop]

/-- What comes before the first occurrence has none. -/
theorem occurrence_take (hsearch : search ≠ []) (h : occurrence search text = some pos) :
    occurrence search (text.take pos) = none := by
  rw [← Option.not_isSome_iff_eq_none, Option.isSome_iff_exists]
  rintro ⟨first, hfirst⟩
  have hroom := add_length_le_of_occurrence hsearch hfirst
  have hpos := List.length_pos_of_ne_nil hsearch
  rw [List.length_take] at hroom
  have hstands : search <+: text.drop first := by
    have hshort := prefix_of_occurrence hfirst
    rw [List.drop_take] at hshort
    exact hshort.trans (List.take_prefix _ _)
  obtain ⟨least, hle, hleast⟩ := exists_occurrence_le hstands
  obtain rfl := Option.some.inj (hleast.symm.trans h)
  omega

/-! ### The first occurrence in the template -/

omit [DecidableEq α] in
@[simp] theorem pageText_nil : pageText ([] : List (Piece α)) = [] := rfl

omit [DecidableEq α] in
@[simp] theorem pageText_raw (text : List α) (page : List (Piece α)) :
    pageText (.raw text :: page) = text ++ pageText page := rfl

omit [DecidableEq α] in
@[simp] theorem pageText_filled (text : List α) (page : List (Piece α)) :
    pageText (.filled text :: page) = text ++ pageText page := rfl

omit [DecidableEq α] in
@[simp] theorem pageText_append (front page : List (Piece α)) :
    pageText (front ++ page) = pageText front ++ pageText page := List.flatMap_append

@[simp] theorem fillAll_raw (text : List α) (page : List (Piece α)) :
    fillAll search replacement (.raw text :: page) =
      fillRaw search replacement text.length text ++ fillAll search replacement page := rfl

@[simp] theorem fillAll_filled (text : List α) (page : List (Piece α)) :
    fillAll search replacement (.filled text :: page) =
      .filled text :: fillAll search replacement page := rfl

omit [DecidableEq α] in
/-- What stands in the template stands on the page. -/
theorem FromTemplate.prefix_drop (h : FromTemplate search pos page) :
    search <+: (pageText page).drop pos := by
  induction page generalizing pos with
  | nil => exact h.elim
  | cons piece page ih =>
    have hbehind (text : List α) (hle : text.length ≤ pos)
        (hlater : FromTemplate search (pos - text.length) page) :
        search <+: (text ++ pageText page).drop pos := by
      rw [List.drop_append, List.drop_eq_nil_of_le hle]
      exact ih hlater
    cases piece with
    | filled text => exact hbehind text h.1 h.2
    | raw text =>
      rcases h with hhere | hlater
      · rw [pageText_raw, List.drop_append]
        exact hhere.trans (List.prefix_append _ _)
      · exact hbehind text hlater.1 hlater.2

/-- The first occurrence in the template stands in it. -/
theorem fromTemplate_of_place (h : place search page = some pos) :
    FromTemplate search pos page := by
  induction page generalizing pos with
  | nil => simp [place] at h
  | cons piece page ih =>
    have hbehind (text : List α) (hlater : (place search page).map (text.length + ·) = some pos) :
        text.length ≤ pos ∧ FromTemplate search (pos - text.length) page := by
      obtain ⟨behind, hplace, rfl⟩ := Option.map_eq_some_iff.mp hlater
      have hin := ih hplace
      refine ⟨by omega, ?_⟩
      rwa [Nat.add_sub_cancel_left]
    cases piece with
    | filled text => exact hbehind text h
    | raw text =>
      rw [place] at h
      cases hfound : occurrence search text with
      | some first =>
        rw [hfound, Option.some_or] at h
        obtain rfl := Option.some.inj h
        exact Or.inl (prefix_of_occurrence hfound)
      | none =>
        rw [hfound, Option.none_or] at h
        exact Or.inr (hbehind text h)

/-- Nothing stands in the template before the first occurrence. -/
theorem FromTemplate.exists_place_le (hsearch : search ≠ []) (h : FromTemplate search pos page) :
    ∃ first ≤ pos, place search page = some first := by
  induction page generalizing pos with
  | nil => exact h.elim
  | cons piece page ih =>
    cases piece with
    | filled text =>
      obtain ⟨first, hle, hfirst⟩ := ih h.2
      have hlength := h.1
      exact ⟨text.length + first, by omega, by rw [place, hfirst]; rfl⟩
    | raw text =>
      rw [place]
      rcases h with hhere | hlater
      · obtain ⟨first, hle, hfirst⟩ := exists_occurrence_le hhere
        exact ⟨first, hle, by rw [hfirst, Option.some_or]⟩
      · cases hfound : occurrence search text with
        | some first =>
          have hroom := add_length_le_of_occurrence hsearch hfound
          have hlength := hlater.1
          exact ⟨first, by omega, Option.some_or⟩
        | none =>
          obtain ⟨first, hle, hfirst⟩ := ih hlater.2
          have hlength := hlater.1
          exact ⟨text.length + first, by omega, by rw [hfirst]; rfl⟩

/-- Where the first occurrence on the page stands in the template, it is the first one there. -/
theorem place_eq_of_fromTemplate (hsearch : search ≠ [])
    (hfirst : occurrence search (pageText page) = some pos) (h : FromTemplate search pos page) :
    place search page = some pos := by
  obtain ⟨first, hle, hplace⟩ := h.exists_place_le hsearch
  obtain ⟨least, hleast, hoccurrence⟩ :=
    exists_occurrence_le (fromTemplate_of_place hplace).prefix_drop
  obtain rfl := Option.some.inj (hoccurrence.symm.trans hfirst)
  obtain rfl : least = first := by omega
  exact hplace

/-- Where nothing occurs on the page, nothing occurs in the template. -/
theorem place_eq_none (h : occurrence search (pageText page) = none) :
    place search page = none := by
  rw [← Option.not_isSome_iff_eq_none, Option.isSome_iff_exists]
  rintro ⟨first, hfirst⟩
  obtain ⟨least, -, hleast⟩ := exists_occurrence_le (fromTemplate_of_place hfirst).prefix_drop
  exact absurd (h.symm.trans hleast) (by simp)

/-! ### One occurrence and all of them -/

/-- The text of a page on which one more occurrence is filled in. -/
theorem pageText_fillNext (hsearch : search ≠ []) (h : place search page = some pos) :
    pageText (fillNext search replacement page) =
      (pageText page).take pos ++ replacement ++ (pageText page).drop (pos + search.length) := by
  induction page generalizing pos with
  | nil => simp [place] at h
  | cons piece page ih =>
    have hbehind (text : List α) (hlater : (place search page).map (text.length + ·) = some pos) :
        text ++ pageText (fillNext search replacement page) =
          (text ++ pageText page).take pos ++ replacement ++
            (text ++ pageText page).drop (pos + search.length) := by
      obtain ⟨behind, hplace, rfl⟩ := Option.map_eq_some_iff.mp hlater
      rw [ih hplace, Nat.add_assoc, List.take_length_add_append, List.drop_length_add_append]
      simp only [List.append_assoc]
    cases piece with
    | filled text => exact hbehind text h
    | raw text =>
      rw [place] at h
      rw [fillNext]
      cases hfound : occurrence search text with
      | some first =>
        rw [hfound, Option.some_or] at h
        obtain rfl := Option.some.inj h
        have hroom := add_length_le_of_occurrence hsearch hfound
        rw [pageText_raw text, List.take_append_of_le_length (by omega),
          List.drop_append_of_le_length (by omega)]
        simp
      | none =>
        rw [hfound, Option.none_or] at h
        exact hbehind text h

/-- The next occurrence comes behind what was filled in. -/
theorem add_length_le_place (hsearch : search ≠ []) {next : ℕ} (h : place search page = some pos)
    (hnext : place search (fillNext search replacement page) = some next) :
    pos + replacement.length ≤ next := by
  induction page generalizing pos next with
  | nil => simp [place] at h
  | cons piece page ih =>
    have hbehind (text : List α) (hlater : (place search page).map (text.length + ·) = some pos)
        (hfilled : (place search (fillNext search replacement page)).map (text.length + ·) =
          some next) : pos + replacement.length ≤ next := by
      obtain ⟨before, hbefore, rfl⟩ := Option.map_eq_some_iff.mp hlater
      obtain ⟨after, hafter, rfl⟩ := Option.map_eq_some_iff.mp hfilled
      have hle := ih hbefore hafter
      omega
    cases piece with
    | filled text => exact hbehind text h hnext
    | raw text =>
      rw [place] at h
      rw [fillNext] at hnext
      cases hfound : occurrence search text with
      | some first =>
        rw [hfound, Option.some_or] at h
        obtain rfl := Option.some.inj h
        have hroom := add_length_le_of_occurrence hsearch hfound
        rw [hfound] at hnext
        simp only [place, occurrence_take hsearch hfound, Option.none_or, Option.map_map] at hnext
        obtain ⟨behind, -, rfl⟩ := Option.map_eq_some_iff.mp hnext
        simp only [Function.comp_apply, List.length_take]
        omega
      | none =>
        rw [hfound, Option.none_or] at h
        rw [hfound] at hnext
        simp only [place, hfound, Option.none_or] at hnext
        exact hbehind text h hnext

/-- A page without an occurrence in the template stays as it is. -/
theorem fillNext_of_place_none (h : place search page = none) :
    fillNext search replacement page = page := by
  induction page with
  | nil => rfl
  | cons piece page ih =>
    cases piece with
    | filled text => rw [fillNext, ih (by simpa [place] using h)]
    | raw text =>
      obtain ⟨hnone, hlater⟩ : occurrence search text = none ∧ place search page = none := by
        simpa [place] using h
      rw [fillNext, hnone, ih hlater]

/-- Filling in a text takes no more rounds than it has letters. -/
theorem fillRaw_eq (hsearch : search ≠ []) {count : ℕ} (hcount : text.length ≤ count) :
    fillRaw search replacement count text = fillRaw search replacement text.length text := by
  suffices h : ∀ other, text.length ≤ other →
      fillRaw search replacement count text = fillRaw search replacement other text from
    h _ le_rfl
  intro other hother
  induction count generalizing other text with
  | zero =>
    obtain rfl := List.length_eq_zero_iff.mp (Nat.le_zero.mp hcount)
    cases other with
    | zero => rfl
    | succ other => simp [fillRaw, occurrence, hsearch]
  | succ count ih =>
    cases other with
    | zero =>
      obtain rfl := List.length_eq_zero_iff.mp (Nat.le_zero.mp hother)
      simp [fillRaw, occurrence, hsearch]
    | succ other =>
      rw [fillRaw, fillRaw]
      cases hfound : occurrence search text with
      | none => rfl
      | some pos =>
        have hlength := List.length_pos_of_ne_nil hsearch
        have hrest := List.length_drop (i := pos + search.length) (l := text)
        dsimp only
        rw [ih (by omega) other (by omega)]

/-- Filling in a text without an occurrence. -/
theorem fillRaw_of_none (hnone : occurrence search text = none) (count : ℕ) :
    fillRaw search replacement count text = [.raw text] := by
  cases count with
  | zero => rfl
  | succ count => rw [fillRaw, hnone]

/-- Filling in a text is filling in its first occurrence and the rest. -/
theorem fillRaw_of_some (hsearch : search ≠ []) (h : occurrence search text = some pos) :
    fillRaw search replacement text.length text =
      .raw (text.take pos) :: .filled replacement :: fillRaw search replacement
        (text.drop (pos + search.length)).length (text.drop (pos + search.length)) := by
  have hroom := add_length_le_of_occurrence hsearch h
  have hlength := List.length_pos_of_ne_nil hsearch
  have hrest := List.length_drop (i := pos + search.length) (l := text)
  obtain ⟨count, hcount⟩ : ∃ count, text.length = count + 1 := ⟨text.length - 1, by omega⟩
  rw [hcount, fillRaw, h]
  dsimp only
  rw [fillRaw_eq hsearch (by omega)]

/-- A page without an occurrence in the template is filled in. -/
theorem fillAll_of_place_none (h : place search page = none) :
    fillAll search replacement page = page := by
  induction page with
  | nil => rfl
  | cons piece page ih =>
    cases piece with
    | filled text => rw [fillAll_filled, ih (by simpa [place] using h)]
    | raw text =>
      obtain ⟨hnone, hlater⟩ : occurrence search text = none ∧ place search page = none := by
        simpa [place] using h
      rw [fillAll_raw, fillRaw_of_none hnone, ih hlater, List.singleton_append]

/-- **Step lemma.** Filling in one occurrence first changes nothing of what filling in all of them
gives. -/
theorem fillAll_fillNext (hsearch : search ≠ []) (page : List (Piece α)) :
    fillAll search replacement (fillNext search replacement page) =
      fillAll search replacement page := by
  induction page with
  | nil => rfl
  | cons piece page ih =>
    cases piece with
    | filled text => rw [fillNext, fillAll_filled, fillAll_filled, ih]
    | raw text =>
      rw [fillNext, fillAll_raw]
      cases hfound : occurrence search text with
      | none => rw [fillAll_raw, ih]
      | some pos =>
        dsimp only
        rw [fillRaw_of_some hsearch hfound, fillAll_raw, fillAll_filled, fillAll_raw,
          fillRaw_of_none (occurrence_take hsearch hfound), List.singleton_append,
          List.cons_append, List.cons_append]

/-- **Run lemma.** Filling in some occurrences first changes nothing of what filling in all of them
gives. -/
theorem fillAll_iterate (hsearch : search ≠ []) (count : ℕ) (page : List (Piece α)) :
    fillAll search replacement ((fillNext search replacement)^[count] page) =
      fillAll search replacement page := by
  induction count with
  | zero => rfl
  | succ count ih => rw [Function.iterate_succ_apply', fillAll_fillNext hsearch, ih]

/-- A page that has no occurrence left keeps none. -/
theorem place_of_place_iterate {count more : ℕ} (hle : count ≤ more)
    (h : place search ((fillNext search replacement)^[count] page) = none) :
    (fillNext search replacement)^[more] page = (fillNext search replacement)^[count] page := by
  induction more, hle using Nat.le_induction with
  | base => rfl
  | succ more _ ih => rw [Function.iterate_succ_apply', ih, fillNext_of_place_none h]

/-- The letters of a text that is filled in. -/
theorem mem_fillRaw {a : α} {count : ℕ}
    (h : a ∈ pageText (fillRaw search replacement count text)) : a ∈ text ∨ a ∈ replacement := by
  induction count generalizing text with
  | zero => exact Or.inl (by simpa [fillRaw] using h)
  | succ count ih =>
    rw [fillRaw] at h
    split at h
    · rw [pageText_raw, pageText_filled, List.mem_append, List.mem_append] at h
      rcases h with hbefore | hfilled | hbehind
      · exact Or.inl (List.mem_of_mem_take hbefore)
      · exact Or.inr hfilled
      · exact (ih hbehind).imp_left List.mem_of_mem_drop
    · exact Or.inl (by simpa using h)

/-- The letters of a page that is filled in. -/
theorem mem_fillAll {a : α} (h : a ∈ pageText (fillAll search replacement page)) :
    a ∈ pageText page ∨ a ∈ replacement := by
  induction page with
  | nil => simp [fillAll] at h
  | cons piece page ih =>
    cases piece with
    | filled text =>
      rw [fillAll_filled, pageText_filled, List.mem_append] at h
      rw [pageText_filled, List.mem_append]
      rcases h with hhere | hbehind
      · exact Or.inl (Or.inl hhere)
      · exact (ih hbehind).imp_left Or.inr
    | raw text =>
      rw [fillAll_raw, pageText_append, List.mem_append] at h
      rw [pageText_raw, List.mem_append]
      rcases h with hhere | hbehind
      · exact (mem_fillRaw hhere).imp_left Or.inl
      · exact (ih hbehind).imp_left Or.inr

/-- Each occurrence that is filled in changes the length by the same amount. -/
theorem length_fillRaw (hsearch : search ≠ []) (count : ℕ) (text : List α) :
    ∃ filled, (pageText (fillRaw search replacement count text)).length + filled * search.length =
      text.length + filled * replacement.length := by
  induction count generalizing text with
  | zero => exact ⟨0, by simp [fillRaw]⟩
  | succ count ih =>
    rw [fillRaw]
    cases hfound : occurrence search text with
    | none => exact ⟨0, by simp⟩
    | some pos =>
      have hroom := add_length_le_of_occurrence hsearch hfound
      obtain ⟨filled, hfilled⟩ := ih (text.drop (pos + search.length))
      refine ⟨filled + 1, ?_⟩
      simp only [pageText_raw, pageText_filled, List.length_append, List.length_take,
        List.length_drop] at hfilled ⊢
      rw [Nat.add_mul, Nat.add_mul, Nat.min_eq_left (by omega)]
      omega

/-- Each occurrence that is filled in changes the length of the page by the same amount. -/
theorem length_fillAll (hsearch : search ≠ []) (page : List (Piece α)) :
    ∃ filled, (pageText (fillAll search replacement page)).length + filled * search.length =
      (pageText page).length + filled * replacement.length := by
  induction page with
  | nil => exact ⟨0, by simp [fillAll]⟩
  | cons piece page ih =>
    obtain ⟨filled, hfilled⟩ := ih
    cases piece with
    | filled text =>
      refine ⟨filled, ?_⟩
      simp only [fillAll_filled, pageText_filled, List.length_append]
      omega
    | raw text =>
      obtain ⟨here, hhere⟩ := @length_fillRaw _ _ _ replacement hsearch text.length text
      refine ⟨here + filled, ?_⟩
      simp only [fillAll_raw, pageText_append, pageText_raw, List.length_append]
      rw [Nat.add_mul, Nat.add_mul]
      omega

/-- A page on which filling in changes nothing is filled with what is searched for. -/
theorem eq_of_fillAll_eq (hsearch : search ≠ []) (hplace : place search page = some pos)
    (h : pageText (fillAll search replacement page) = pageText page) : replacement = search := by
  induction page generalizing pos with
  | nil => simp [place] at hplace
  | cons piece page ih =>
    cases piece with
    | filled text =>
      obtain ⟨behind, hbehind, -⟩ := Option.map_eq_some_iff.mp hplace
      rw [fillAll_filled, pageText_filled, pageText_filled] at h
      exact ih hbehind (List.append_cancel_left h)
    | raw text =>
      cases hfound : occurrence search text with
      | none =>
        rw [place, hfound, Option.none_or] at hplace
        obtain ⟨behind, hbehind, -⟩ := Option.map_eq_some_iff.mp hplace
        rw [fillAll_raw, fillRaw_of_none hfound, List.singleton_append, pageText_raw,
          pageText_raw] at h
        exact ih hbehind (List.append_cancel_left h)
      | some first =>
        let rest : List (Piece α) := .raw (text.drop (first + search.length)) :: page
        have hbehind : replacement ++ pageText (fillAll search replacement rest) =
            search ++ pageText rest := by
          have hsplit := take_append_occurrence hfound
          rw [fillAll_raw, fillRaw_of_some hsearch hfound, pageText_raw] at h
          nth_rewrite 4 [← hsplit] at h
          simpa [rest] using h
        obtain ⟨filled, hfilled⟩ := @length_fillAll _ _ _ replacement hsearch rest
        have hlength := congrArg List.length hbehind
        rw [List.length_append, List.length_append] at hlength
        have hequal : (filled + 1) * search.length = (filled + 1) * replacement.length := by
          rw [Nat.add_mul, Nat.add_mul]
          omega
        have hsame := Nat.eq_of_mul_eq_mul_left (Nat.succ_pos filled) hequal
        exact (List.append_inj hbehind hsame.symm).1

/-! ### In one pass over the letters -/

/-- The letters of the occurrence that was replaced last are passed over. -/
theorem replaceAll_skip (skip : ℕ) (text : List α) :
    replaceAll search replacement skip text = replaceAll search replacement 0 (text.drop skip) := by
  induction skip generalizing text with
  | zero => rfl
  | succ skip ih =>
    cases text with
    | nil => simp [replaceAll]
    | cons a rest => rw [replaceAll, ih, List.drop_succ_cons]

/-- A text without an occurrence stays as it is. -/
theorem replaceAll_of_none (h : occurrence search text = none) :
    replaceAll search replacement 0 text = text := by
  induction text with
  | nil => rfl
  | cons a rest ih =>
    rw [occurrence] at h
    split at h
    · exact absurd h (by simp)
    · next hstarts =>
      rw [replaceAll, if_neg hstarts, ih (by simpa using h)]

/-- The first occurrence is replaced, and then those behind it. -/
theorem replaceAll_of_some (hsearch : search ≠ []) (h : occurrence search text = some pos) :
    replaceAll search replacement 0 text = text.take pos ++ replacement ++
      replaceAll search replacement 0 (text.drop (pos + search.length)) := by
  induction text generalizing pos with
  | nil => simp [occurrence, hsearch] at h
  | cons a rest ih =>
    have hlength := List.length_pos_of_ne_nil hsearch
    rw [occurrence] at h
    split at h
    · next hstarts =>
      obtain rfl := Option.some.inj h
      have hdrop : (a :: rest).drop (0 + search.length) = rest.drop (search.length - 1) := by
        obtain ⟨count, hcount⟩ : ∃ count, search.length = count + 1 :=
          ⟨search.length - 1, by omega⟩
        rw [hcount, Nat.zero_add, List.drop_succ_cons, Nat.add_sub_cancel]
      rw [replaceAll, if_pos hstarts, replaceAll_skip, hdrop]
      simp
    · next hstarts =>
      obtain ⟨before, hbefore, rfl⟩ := Option.map_eq_some_iff.mp h
      rw [replaceAll, if_neg hstarts, ih hbefore, Nat.add_right_comm, List.drop_succ_cons,
        List.take_succ_cons, List.cons_append, List.cons_append]

/-- **Reference lemma.** A template that is filled in is the text with all leftmost,
non-overlapping occurrences replaced. -/
theorem pageText_fillAll_raw (hsearch : search ≠ []) (text : List α) :
    pageText (fillAll search replacement [.raw text]) = replaceAll search replacement 0 text := by
  have hloop (count : ℕ) (text : List α) (hcount : text.length ≤ count) :
      pageText (fillRaw search replacement count text) = replaceAll search replacement 0 text := by
    induction count generalizing text with
    | zero =>
      obtain rfl := List.length_eq_zero_iff.mp (Nat.le_zero.mp hcount)
      rfl
    | succ count ih =>
      have hlength := List.length_pos_of_ne_nil hsearch
      rw [fillRaw]
      cases hfound : occurrence search text with
      | none => rw [replaceAll_of_none hfound, pageText_raw, pageText_nil, List.append_nil]
      | some pos =>
        have hrest := List.length_drop (i := pos + search.length) (l := text)
        rw [replaceAll_of_some hsearch hfound, ← ih _ (by omega)]
        simp
  simpa [fillAll] using hloop text.length text le_rfl

end Khttp.Lib
