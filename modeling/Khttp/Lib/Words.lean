import Mathlib.Data.List.TakeWhile
import Mathlib.Tactic.Common

/-!
# The words of a text

Blanks keep the words of a text apart. A scanner that stops at the first letter it cannot read
finds the words before that letter whole and of the word with that letter the front.
-/

namespace Khttp.Lib

variable {α : Type*}

/-- The words of a text. -/
def words (blank : α → Bool) (text : List α) : List (List α) :=
  (text.splitOnP blank).filter (!·.isEmpty)

/-- The words up to the first one that cannot be read, and the front of that one. -/
def cutWords (legible : α → Bool) : List (List α) → List (List α)
  | [] => []
  | word :: rest =>
    if word.all legible then word :: cutWords legible rest
    else [word.takeWhile legible].filter (!·.isEmpty)

variable {blank legible : α → Bool}

/-- A text is a word, or a word, a blank and a text. -/
theorem words_induction (blank : α → Bool) {P : List α → Prop}
    (word : ∀ word, (∀ a ∈ word, blank a = false) → P word)
    (cons : ∀ word b rest, (∀ a ∈ word, blank a = false) → blank b = true → P rest →
      P (word ++ b :: rest)) (text : List α) : P text := by
  suffices h : ∀ front, (∀ a ∈ front, blank a = false) → P (front ++ text) by
    simpa using h [] (by simp)
  induction text with
  | nil =>
    intro front hfront
    simpa using word front hfront
  | cons a rest ih =>
    intro front hfront
    by_cases hblank : blank a = true
    · refine cons front a rest hfront hblank ?_
      simpa using ih [] (by simp)
    · have hnext : ∀ b ∈ front ++ [a], blank b = false := by
        intro b hb
        rcases List.mem_append.mp hb with hold | hnew
        · exact hfront b hold
        · simpa [List.mem_singleton.mp hnew] using hblank
      simpa using ih (front ++ [a]) hnext

@[simp] theorem words_nil : words blank [] = [] := rfl

/-- A text without a blank is a word. -/
theorem words_of_unbroken {word : List α} (h : ∀ a ∈ word, blank a = false) :
    words blank word = [word].filter (!·.isEmpty) := by
  rw [words, List.splitOnP_eq_singleton h]

/-- A blank ends a word. -/
theorem words_append_cons (front rest : List α) {b : α} (hb : blank b = true) :
    words blank (front ++ b :: rest) = words blank front ++ words blank rest := by
  rw [words, List.splitOnP_append_cons front rest hb, List.filter_append, words, words]

/-- What a word is made of. -/
theorem of_mem_words {text word : List α} (h : word ∈ words blank text) :
    word ≠ [] ∧ ∀ a ∈ word, a ∈ text ∧ blank a = false := by
  induction text using words_induction blank with
  | word only honly =>
    rw [words_of_unbroken honly] at h
    obtain ⟨hmem, hne⟩ := List.mem_filter.mp h
    obtain rfl := List.mem_singleton.mp hmem
    exact ⟨by simpa using hne, fun a ha => ⟨ha, honly a ha⟩⟩
  | cons first b rest hfirst hb ih =>
    rw [words_append_cons first rest hb, words_of_unbroken hfirst, List.mem_append] at h
    rcases h with hhere | hlater
    · obtain ⟨hmem, hne⟩ := List.mem_filter.mp hhere
      obtain rfl := List.mem_singleton.mp hmem
      exact ⟨by simpa using hne, fun a ha => ⟨List.mem_append_left _ ha, hfirst a ha⟩⟩
    · obtain ⟨hne, hletters⟩ := ih hlater
      refine ⟨hne, fun a ha => ⟨?_, (hletters a ha).2⟩⟩
      exact List.mem_append_right _ (List.mem_cons_of_mem _ (hletters a ha).1)

/-- The words of a text that can be read can be read. -/
theorem all_of_mem_words {text : List α} (hall : text.all legible = true) :
    ∀ word ∈ words blank text, word.all legible = true := fun _ h =>
  List.all_eq_true.mpr fun a ha => List.all_eq_true.mp hall a ((of_mem_words h).2 a ha).1

/-- Words that can be read stay. -/
theorem cutWords_of_all {front : List (List α)} (h : ∀ word ∈ front, word.all legible = true)
    (rest : List (List α)) : cutWords legible (front ++ rest) = front ++ cutWords legible rest := by
  induction front with
  | nil => rfl
  | cons word front ih =>
    rw [List.cons_append, cutWords, if_pos (h word List.mem_cons_self),
      ih fun w hw => h w (List.mem_cons_of_mem _ hw), List.cons_append]

/-- What is left can be read. -/
theorem all_of_mem_cutWords {ws : List (List α)} {word : List α} (h : word ∈ cutWords legible ws) :
    word.all legible = true := by
  induction ws with
  | nil => simp [cutWords] at h
  | cons first rest ih =>
    rw [cutWords] at h
    split at h
    · next hall =>
      rcases List.mem_cons.mp h with rfl | hlater
      · exact hall
      · exact ih hlater
    · obtain rfl := List.mem_singleton.mp (List.mem_filter.mp h).1
      exact List.all_takeWhile

/-- No empty word is left. -/
theorem ne_nil_of_mem_cutWords {ws : List (List α)} (hws : ∀ word ∈ ws, word ≠ []) {word : List α}
    (h : word ∈ cutWords legible ws) : word ≠ [] := by
  induction ws with
  | nil => simp [cutWords] at h
  | cons first rest ih =>
    rw [cutWords] at h
    split at h
    · rcases List.mem_cons.mp h with rfl | hlater
      · exact hws _ List.mem_cons_self
      · exact ih (fun w hw => hws w (List.mem_cons_of_mem _ hw)) hlater
    · simpa using (List.mem_filter.mp h).2

/-- A word that cannot be read stops the scanner inside it. -/
theorem takeWhile_of_illegible {word : List α} (hword : ∀ a ∈ word, blank a = false)
    (hstop : ¬ word.all legible = true) (rest : List α) :
    (word ++ rest).takeWhile (fun a => legible a || blank a) = word.takeWhile legible := by
  induction word with
  | nil => simp at hstop
  | cons a word ih =>
    have hblank := hword a List.mem_cons_self
    by_cases ha : legible a = true
    · have hlater : ¬ word.all legible = true := by simpa [ha] using hstop
      rw [List.cons_append, List.takeWhile_cons_of_pos (by simp [ha]),
        List.takeWhile_cons_of_pos ha, ih (fun b hb => hword b (List.mem_cons_of_mem _ hb)) hlater]
    · rw [List.cons_append, List.takeWhile_cons_of_neg (by simp [ha, hblank]),
        List.takeWhile_cons_of_neg ha]

/-- The words of a text that starts with a word that cannot be read. -/
theorem cutWords_words_append {word : List α} (hword : ∀ a ∈ word, blank a = false)
    (hstop : ¬ word.all legible = true) (ws : List (List α)) :
    cutWords legible (words blank word ++ ws) = words blank (word.takeWhile legible) := by
  have hne : word ≠ [] := by
    rintro rfl
    simp at hstop
  have hfront : ∀ a ∈ word.takeWhile legible, blank a = false :=
    fun a ha => hword a ((List.takeWhile_prefix legible).subset ha)
  have honly : [word].filter (!·.isEmpty) = [word] := by simp [hne]
  rw [words_of_unbroken hword, words_of_unbroken hfront, honly, List.singleton_append, cutWords,
    if_neg hstop]

/-- **Scanning lemma.** The words of the text up to the first letter that cannot be read. -/
theorem words_takeWhile (text : List α) :
    words blank (text.takeWhile fun a => legible a || blank a) =
      cutWords legible (words blank text) := by
  induction text using words_induction blank with
  | word word hword =>
    by_cases hall : word.all legible = true
    · have hself : word.takeWhile (fun a => legible a || blank a) = word := by
        refine List.takeWhile_eq_self_iff.mpr fun a ha => ?_
        simp [List.all_eq_true.mp hall a ha]
      simpa [hself, cutWords] using (cutWords_of_all (all_of_mem_words hall) []).symm
    · have hstop := takeWhile_of_illegible hword hall []
      have hcut := cutWords_words_append hword hall []
      rw [List.append_nil] at hstop hcut
      rw [hstop, hcut]
  | cons word b rest hword hb ih =>
    rw [words_append_cons word rest hb]
    by_cases hall : word.all legible = true
    · rw [cutWords_of_all (all_of_mem_words hall), ← ih, List.takeWhile_append_of_pos,
        List.takeWhile_cons_of_pos (by simp [hb]), words_append_cons word _ hb]
      intro a ha
      simp [List.all_eq_true.mp hall a ha]
    · rw [takeWhile_of_illegible hword hall, cutWords_words_append hword hall]

end Khttp.Lib
