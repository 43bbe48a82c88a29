import Mathlib.Data.List.DropRight
import Mathlib.Tactic.Common

/-!
# Words that are looked for in a text

A text is compared with a word one character at a time, up to the spelling of its characters, and
may go on with padding. What has been read of it is a part of the word, or the word, or can no
longer become the word.
-/

namespace Khttp.Lib

variable {α β : Type*} {low : α → β} {pad : α → Bool} {word : List β} {text : List α} {c : α}

/-- The text is the word, with padding behind it. -/
def Spells (low : α → β) (pad : α → Bool) (word : List β) (text : List α) : Prop :=
  ∃ front tail, text = front ++ tail ∧ front.map low = word ∧ ∀ c ∈ tail, pad c = true

/-- The text is the beginning of the word, but not the word. -/
def Begins (low : α → β) (word : List β) (text : List α) : Prop :=
  ∃ c rest, word = text.map low ++ c :: rest

/-- Whatever follows the text, it is not the word. -/
def Differs (low : α → β) (pad : α → Bool) (word : List β) (text : List α) : Prop :=
  ∀ rest, ¬Spells low pad word (text ++ rest)

/-- What has become different stays so. -/
theorem Differs.append (h : Differs low pad word text) (rest : List α) :
    Differs low pad word (text ++ rest) := by
  intro more
  rw [List.append_assoc]
  exact h _

/-- A text that differs is not the word. -/
theorem Differs.not_spells (h : Differs low pad word text) : ¬Spells low pad word text := by
  simpa using h []

/-- A word begins with the empty text. -/
theorem begins_nil (h : word ≠ []) : Begins low word ([] : List α) := by
  obtain ⟨c, rest, rfl⟩ := List.exists_cons_of_ne_nil h
  exact ⟨c, rest, rfl⟩

/-- The beginning of a word is shorter than it. -/
theorem Begins.length_lt (h : Begins low word text) : text.length < word.length := by
  obtain ⟨c, rest, rfl⟩ := h
  rw [List.length_append, List.length_map, List.length_cons]
  omega

/-- The beginning of a word is not the word. -/
theorem Begins.not_spells (h : Begins low word text) : ¬Spells low pad word text := by
  rintro ⟨front, tail, rfl, rfl, _⟩
  have hlt := h.length_lt
  rw [List.length_append, List.length_map] at hlt
  omega

/-- The next character of the word. -/
theorem Begins.getElem? (h : Begins low word text) : ∃ d, word[text.length]? = some d := by
  exact ⟨_, List.getElem?_eq_getElem h.length_lt⟩

/-- A character that is not the next one. -/
theorem Begins.differs (h : Begins low word text) (hc : word[text.length]? ≠ some (low c)) :
    Differs low pad word (text ++ [c]) := by
  rintro more ⟨front, tail, heq, rfl, _⟩
  have hlt := h.length_lt
  rw [List.length_map] at hlt
  -- the front of the text is longer than what was read, so it has the character
  have hfront : front[text.length]? = some c := by
    have hget := congrArg (·[text.length]?) heq
    simpa [List.getElem?_append_left hlt] using hget.symm
  exact hc (by rw [List.getElem?_map, hfront, Option.map_some])

/-- The next character, behind which there are more. -/
theorem Begins.next (h : Begins low word text) (hc : word[text.length]? = some (low c))
    (hlt : text.length + 1 < word.length) : Begins low word (text ++ [c]) := by
  obtain ⟨d, rest, rfl⟩ := h
  have hd : d = low c := by simpa using hc
  cases rest with
  | nil => simp at hlt
  | cons e rest => exact ⟨e, rest, by simp [hd]⟩

/-- The last character. -/
theorem Begins.spells (h : Begins low word text) (hc : word[text.length]? = some (low c))
    (hlast : text.length + 1 = word.length) : Spells low pad word (text ++ [c]) := by
  obtain ⟨d, rest, rfl⟩ := h
  have hd : d = low c := by simpa using hc
  have hrest : rest = [] := by
    rw [List.length_append, List.length_map, List.length_cons] at hlast
    exact List.eq_nil_of_length_eq_zero (by omega)
  exact ⟨text ++ [c], [], (List.append_nil _).symm, by simp [hd, hrest], by simp⟩

/-- Padding behind the word. -/
theorem Spells.padded (h : Spells low pad word text) (hc : pad c = true) :
    Spells low pad word (text ++ [c]) := by
  obtain ⟨front, tail, rfl, hword, htail⟩ := h
  refine ⟨front, tail ++ [c], List.append_assoc _ _ _, hword, fun d hd => ?_⟩
  rcases List.mem_append.mp hd with hd | hd
  · exact htail d hd
  · rwa [List.mem_singleton.mp hd]

/-- Something else behind the word. -/
theorem Spells.differs (h : Spells low pad word text) (hc : pad c = false) :
    Differs low pad word (text ++ [c]) := by
  rintro more ⟨front', tail', heq, hword', htail'⟩
  obtain ⟨front, tail, rfl, hword, _⟩ := h
  have hlength : front.length = front'.length := by
    have hmap := congrArg List.length (hword.trans hword'.symm)
    simpa using hmap
  obtain ⟨_, rfl⟩ := List.append_inj (by simpa using heq) hlength
  have hpad := htail' c (by simp)
  rw [hc] at hpad
  contradiction

/-- The padding of a text taken away, where the word does not end in padding. -/
theorem spells_iff (hpad : ∀ c, pad c = true → low c ∉ word) :
    Spells low pad word text ↔ (text.rdropWhile pad).map low = word := by
  constructor
  · rintro ⟨front, tail, rfl, hword, htail⟩
    induction tail using List.reverseRecOn with
    | nil =>
      have hfront : front.rdropWhile pad = front :=
        List.rdropWhile_eq_self_iff.mpr fun hne hc =>
          hpad _ hc (hword ▸ List.mem_map_of_mem (List.getLast_mem hne))
      rw [List.append_nil, hfront, hword]
    | append_singleton tail c ih =>
      rw [← List.append_assoc, List.rdropWhile_concat_pos _ _ _ (htail c (by simp))]
      exact ih fun d hd => htail d (List.mem_append_left _ hd)
  · intro hword
    exact ⟨text.rdropWhile pad, text.rtakeWhile pad, List.rdropWhile_append_rtakeWhile.symm, hword,
      fun c hc => List.mem_rtakeWhile_imp hc⟩

/-- Without padding it is the word. -/
theorem spells_iff_of_not_pad (hpad : ∀ c, pad c = false) :
    Spells low pad word text ↔ text.map low = word := by
  have hself : text.rdropWhile pad = text :=
    List.rdropWhile_eq_self_iff.mpr fun _ => by simp [hpad]
  rw [spells_iff fun c hc => by simp [hpad] at hc, hself]

/-- Without padding a text differs from the words that do not begin with it. -/
theorem differs_of_not_pad (hpad : ∀ c, pad c = false) (h : ¬text.map low <+: word) :
    Differs low pad word text := by
  intro rest hspells
  rw [spells_iff_of_not_pad hpad, List.map_append] at hspells
  exact h ⟨_, hspells⟩

/-- A character that a word does not go on with. -/
theorem not_prefix_append (h : text.map low <+: word → word[text.length]? ≠ some (low c)) :
    ¬(text ++ [c]).map low <+: word := by
  rintro ⟨rest, rfl⟩
  refine h ⟨low c :: rest, by simp⟩ ?_
  simp

end Khttp.Lib
