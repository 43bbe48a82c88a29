import Mathlib.Tactic.Common

/-!
# Lists of fragments

Some elements of a list may be joined with the next one, as the pieces of a text can. Two lists
that are equal when everything is joined stay so in any context, so the pieces that a text comes
in can be forgotten.
-/

namespace Khttp.Lib

variable {κ : Type*}

/-- A partial operation that joins neighbours, whichever of them it begins with. -/
structure Joining (join : κ → κ → Option κ) : Prop where
  /-- It is associative. -/
  assoc : ∀ {a b c ab bc}, join a b = some ab → join b c = some bc →
    ∃ abc, join ab c = some abc ∧ join a bc = some abc
  /-- What cannot be joined with an element cannot be joined with one that ends with it. -/
  none : ∀ {a b c ab}, join a b = some ab → join b c = none → join ab c = none

/-- An element in front of a list, joined with its first one. -/
def joinHead (join : κ → κ → Option κ) (c : κ) : List κ → List κ
  | [] => [c]
  | d :: ds =>
    match join c d with
    | some e => e :: ds
    | none => c :: d :: ds

/-- The list where neighbours are joined. -/
def coalesce (join : κ → κ → Option κ) (cs : List κ) : List κ := cs.foldr (joinHead join) []

variable {join : κ → κ → Option κ}

@[simp] theorem coalesce_nil : coalesce join [] = [] := by
  rw [coalesce, List.foldr_nil]

theorem coalesce_cons (c : κ) (cs : List κ) :
    coalesce join (c :: cs) = joinHead join c (coalesce join cs) := by
  rw [coalesce, List.foldr_cons, coalesce]

/-- Lists that are equal when joined, in front of which something stands. -/
theorem coalesce_append_right (xs : List κ) {ys ys' : List κ}
    (h : coalesce join ys = coalesce join ys') :
    coalesce join (xs ++ ys) = coalesce join (xs ++ ys') := by
  induction xs with
  | nil => exact h
  | cons c xs ih => rw [List.cons_append, List.cons_append, coalesce_cons, coalesce_cons, ih]

/-- Two neighbours in front of a list may be joined first. -/
theorem joinHead_joinHead (hjoin : Joining join) {c d e : κ} (hcd : join c d = some e)
    (cs : List κ) : joinHead join c (joinHead join d cs) = joinHead join e cs := by
  cases cs with
  | nil => simp [joinHead, hcd]
  | cons w ws =>
    cases hdw : join d w with
    | none => simp [joinHead, hdw, hcd, hjoin.none hcd hdw]
    | some dw =>
      obtain ⟨all, hew, hcdw⟩ := hjoin.assoc hcd hdw
      simp [joinHead, hdw, hew, hcdw]

/-- Two neighbours may be joined first. -/
theorem coalesce_join (hjoin : Joining join) {c d e : κ} (hcd : join c d = some e)
    (xs ys : List κ) : coalesce join (xs ++ c :: d :: ys) = coalesce join (xs ++ e :: ys) := by
  apply coalesce_append_right
  rw [coalesce_cons, coalesce_cons, coalesce_cons, joinHead_joinHead hjoin hcd]

/-- The first part of a list may be joined first. -/
theorem coalesce_append (hjoin : Joining join) (xs ys : List κ) :
    coalesce join (xs ++ ys) = coalesce join (coalesce join xs ++ ys) := by
  induction xs with
  | nil => rw [coalesce_nil]
  | cons c xs ih =>
    rw [List.cons_append, coalesce_cons, ih, coalesce_cons]
    cases hxs : coalesce join xs with
    | nil => rw [joinHead, List.nil_append, List.singleton_append, coalesce_cons]
    | cons d ds =>
      cases hcd : join c d with
      | none =>
        rw [joinHead, hcd]
        dsimp only
        rw [List.cons_append, List.cons_append, List.cons_append, coalesce_cons, coalesce_cons,
          coalesce_cons]
      | some e =>
        rw [joinHead, hcd]
        dsimp only
        rw [List.cons_append, List.cons_append, coalesce_cons, coalesce_cons,
          joinHead_joinHead hjoin hcd]

/-- Lists that are equal when joined, behind which something stands. -/
theorem coalesce_append_left (hjoin : Joining join) {xs xs' : List κ} (ys : List κ)
    (h : coalesce join xs = coalesce join xs') :
    coalesce join (xs ++ ys) = coalesce join (xs' ++ ys) := by
  rw [coalesce_append hjoin xs, coalesce_append hjoin xs', h]

/-- The pieces of a text are joined to the text. -/
theorem coalesce_pieces (hjoin : Joining join) {α : Type*} {text : List α → κ}
    (htext : ∀ xs ys, join (text xs) (text ys) = some (text (xs ++ ys))) (xs ys : List α)
    (cs : List κ) :
    coalesce join (text xs :: (ys.map (fun y => text [y]) ++ cs)) =
      coalesce join (text (xs ++ ys) :: cs) := by
  induction ys generalizing xs with
  | nil => rw [List.map_nil, List.nil_append, List.append_nil]
  | cons y ys ih =>
    calc coalesce join (text xs :: ((y :: ys).map (fun y => text [y]) ++ cs))
      _ = coalesce join (text (xs ++ [y]) :: (ys.map (fun y => text [y]) ++ cs)) :=
        coalesce_join hjoin (htext xs [y]) [] _
      _ = coalesce join (text (xs ++ [y] ++ ys) :: cs) := ih (xs ++ [y])
      _ = coalesce join (text (xs ++ y :: ys) :: cs) := by
        rw [List.append_assoc, List.singleton_append]

end Khttp.Lib
