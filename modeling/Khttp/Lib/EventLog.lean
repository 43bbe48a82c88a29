import Mathlib.Data.List.Basic

/-!
# What an event log leaves standing

An event may open a key and may end keys that earlier events opened. A key is
standing at the end of a log when the event that opened it is followed by none
that ends it. The definition reads the log from the front; the lemmas say what
one more event at its end does.
-/

namespace Khttp.Lib

variable {ε κ : Type*} (opens : ε → Option κ) (ends : ε → κ → Bool)

/-- The keys opened and not ended since, in the order in which they were opened. -/
def standing : List ε → List κ
  | [] => []
  | e :: later =>
    match opens e with
    | some k => if later.all (!ends · k) then k :: standing later else standing later
    | none => standing later

@[simp] theorem standing_nil : standing opens ends [] = [] := rfl

/-- A standing key was opened by an event of the log. -/
theorem exists_opens_of_mem_standing {log : List ε} {k : κ} (hk : k ∈ standing opens ends log) :
    ∃ e ∈ log, opens e = some k := by
  induction log with
  | nil => simp at hk
  | cons e later ih =>
    have hlater (h : k ∈ standing opens ends later) : ∃ e' ∈ e :: later, opens e' = some k := by
      obtain ⟨e', he', hopen⟩ := ih h
      exact ⟨e', List.mem_cons_of_mem _ he', hopen⟩
    cases hopen : opens e with
    | none =>
      rw [standing, hopen] at hk
      exact hlater hk
    | some k' =>
      rw [standing, hopen] at hk
      dsimp only at hk
      split at hk
      · rcases List.mem_cons.mp hk with rfl | h
        · exact ⟨e, List.mem_cons_self, hopen⟩
        · exact hlater h
      · exact hlater hk

/-- One more event ends some of the standing keys and puts the one it opens last. -/
theorem standing_concat (log : List ε) (e : ε) :
    standing opens ends (log ++ [e]) =
      (standing opens ends log).filter (!ends e ·) ++ (opens e).toList := by
  induction log with
  | nil => cases hopen : opens e <;> simp [standing, hopen]
  | cons first later ih =>
    cases hopen : opens first with
    | none => simpa [standing, hopen] using ih
    | some k =>
      simp only [List.cons_append, standing, hopen, List.all_append, List.all_cons, List.all_nil,
        Bool.and_true, Bool.and_eq_true, Bool.not_eq_true']
      -- The first key stands after the new event iff it stood before and is spared by it.
      cases hall : later.all (!ends · k) <;> cases hends : ends e k <;>
        simp [ih, hends]

/-- What the event opening a later key spares of the earlier keys holds between any
two standing keys. -/
theorem standing_pairwise {R : κ → κ → Prop}
    (hR : ∀ e k k', opens e = some k' → ends e k = false → R k k') (log : List ε) :
    (standing opens ends log).Pairwise R := by
  induction log with
  | nil => exact List.Pairwise.nil
  | cons e later ih =>
    cases hopen : opens e with
    | none => simpa [standing, hopen] using ih
    | some k =>
      rw [standing, hopen]
      dsimp only
      split
      · next hall =>
        refine List.pairwise_cons.mpr ⟨fun k' hk' => ?_, ih⟩
        obtain ⟨e', he', hopen'⟩ := exists_opens_of_mem_standing opens ends hk'
        have hspared := List.all_eq_true.mp hall e' he'
        exact hR e' k k' hopen' (by simpa using hspared)
      · exact ih

end Khttp.Lib
