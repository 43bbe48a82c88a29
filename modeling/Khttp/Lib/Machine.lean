import Mathlib.Data.List.Basic
import Mathlib.Data.List.Infix
import Mathlib.Order.WellFounded

/-!
# Guarded step functions and their runs

A machine is an executable step function: `step s a` is the state after action
`a`, and `none` where `a` is not enabled in `s`. A run is a list of actions, so
one definition serves the replay of a concrete schedule and the proofs about all
schedules. Invariants are relative to a condition on the steps taken, which is
evaluated in the state before each step.
-/

namespace Khttp.Lib

/-- A transition system given by a guarded, executable step function. -/
structure Machine (σ α : Type*) where
  /-- The state before the first action. -/
  init : σ
  /-- The state after an action, where the action is enabled. -/
  step : σ → α → Option σ

namespace Machine

variable {σ α : Type*} (M : Machine σ α)

/-- Replay of a schedule from a given state. -/
def runFrom (s : σ) : List α → Option σ
  | [] => some s
  | a :: as => (M.step s a).bind fun t => runFrom t as

/-- Replay of a schedule from the initial state. -/
def run (as : List α) : Option σ := M.runFrom M.init as

/-- Every step of the schedule meets `good`, read in the state before the step. -/
def Meets (good : σ → α → Prop) (s : σ) : List α → Prop
  | [] => True
  | a :: as => good s a ∧ ∀ t, M.step s a = some t → Meets good t as

/-- Whether a schedule meets a decidable condition can be computed. -/
instance decidableMeets {good : σ → α → Prop} [∀ s a, Decidable (good s a)] :
    ∀ s as, Decidable (M.Meets good s as)
  | _, [] => isTrue trivial
  | s, a :: as =>
    match h : M.step s a with
    | none => decidable_of_iff (good s a) (by simp [Meets, h])
    | some t =>
      have : Decidable (M.Meets good t as) := decidableMeets t as
      decidable_of_iff (good s a ∧ M.Meets good t as) (by simp [Meets, h])

@[simp] theorem runFrom_nil (s : σ) : M.runFrom s [] = some s := rfl

/-- A nonempty schedule runs by its first action and then by the rest. -/
theorem runFrom_cons {s t : σ} {a : α} {as : List α} :
    M.runFrom s (a :: as) = some t ↔
      ∃ u, M.step s a = some u ∧ M.runFrom u as = some t := by
  simp only [runFrom, Option.bind_eq_some_iff]

/-- Schedules compose: replaying a concatenation replays its two parts in turn. -/
theorem runFrom_append {s t : σ} {as bs : List α} :
    M.runFrom s (as ++ bs) = some t ↔
      ∃ u, M.runFrom s as = some u ∧ M.runFrom u bs = some t := by
  induction as generalizing s with
  | nil => simp
  | cons a as ih =>
    simp only [List.cons_append, runFrom_cons, ih]
    constructor
    · rintro ⟨u, hu, v, hv, ht⟩
      exact ⟨v, ⟨u, hu, hv⟩, ht⟩
    · rintro ⟨v, ⟨u, hu, hv⟩, ht⟩
      exact ⟨u, hu, v, hv, ht⟩

/-- Every prefix of a schedule that runs is itself a schedule that runs. -/
theorem runFrom_initial {s t : σ} {as bs : List α} (hrun : M.runFrom s as = some t)
    (hpre : bs <+: as) : ∃ u, M.runFrom s bs = some u := by
  obtain ⟨cs, rfl⟩ := hpre
  obtain ⟨u, hu, _⟩ := (M.runFrom_append).mp hrun
  exact ⟨u, hu⟩

/-- The condition on steps is inherited by every prefix of a schedule. -/
theorem Meets.initial {good : σ → α → Prop} {s : σ} {as bs : List α}
    (h : M.Meets good s as) (hpre : bs <+: as) : M.Meets good s bs := by
  obtain ⟨cs, rfl⟩ := hpre
  induction bs generalizing s with
  | nil => trivial
  | cons b bs ih => exact ⟨h.1, fun t ht => ih (h.2 t ht)⟩

/-- A condition that every step meets is met by every schedule. -/
theorem meets_of_forall {good : σ → α → Prop} (h : ∀ s a, good s a) (s : σ) (as : List α) :
    M.Meets good s as := by
  induction as generalizing s with
  | nil => trivial
  | cons a as ih => exact ⟨h s a, fun t _ => ih t⟩

/-- A condition on actions alone is met by every schedule made of such actions. -/
theorem meets_of_forall_mem {good : α → Prop} (s : σ) {as : List α} (h : ∀ a ∈ as, good a) :
    M.Meets (fun _ a => good a) s as := by
  induction as generalizing s with
  | nil => trivial
  | cons a as ih =>
    exact ⟨h a (by simp), fun t _ => ih t (fun b hb => h b (by simp [hb]))⟩

/-- **Invariant rule.** What holds at the start and is preserved by every step
meeting the condition holds at the end of every schedule whose steps all meet it. -/
theorem invariant (good : σ → α → Prop) (I : σ → Prop)
    (hstep : ∀ s a t, I s → good s a → M.step s a = some t → I t)
    {s t : σ} {as : List α} (hs : I s) (hmeets : M.Meets good s as)
    (hrun : M.runFrom s as = some t) : I t := by
  induction as generalizing s with
  | nil =>
    obtain rfl : s = t := by simpa using hrun
    exact hs
  | cons a as ih =>
    obtain ⟨u, hu, ht⟩ := (M.runFrom_cons).mp hrun
    exact ih (hstep s a u hs hmeets.1 hu) (hmeets.2 u hu) ht

/-- The invariant rule for steps under no condition. -/
theorem invariant_of_step {I : σ → Prop} (hstep : ∀ s a t, I s → M.step s a = some t → I t)
    {s t : σ} {as : List α} (hs : I s) (hrun : M.runFrom s as = some t) : I t :=
  M.invariant (fun _ _ => True) I (fun s a t h _ => hstep s a t h) hs
    (M.meets_of_forall (fun _ _ => trivial) s as) hrun

/-- **Prefix rule.** Where a step keeps a property if and only if it meets the condition, all
states of a schedule have the property if and only if all its steps meet the condition. -/
theorem always_iff {good : σ → α → Prop} {P : σ → Prop}
    (hP : ∀ s a t, P s → M.step s a = some t → (P t ↔ good s a))
    {s t : σ} {as : List α} (hs : P s) (hrun : M.runFrom s as = some t) :
    (∀ bs, bs <+: as → ∀ u, M.runFrom s bs = some u → P u) ↔ M.Meets good s as := by
  induction as generalizing s with
  | nil =>
    refine ⟨fun _ => trivial, fun _ bs hbs u hu => ?_⟩
    obtain rfl := List.prefix_nil.mp hbs
    obtain rfl : s = u := by simpa using hu
    exact hs
  | cons a as ih =>
    obtain ⟨v, hv, hrest⟩ := (M.runFrom_cons).mp hrun
    constructor
    · intro hall
      have hPv : P v := hall [a] ⟨as, rfl⟩ v ((M.runFrom_cons).mpr ⟨v, hv, rfl⟩)
      refine ⟨(hP s a v hs hv).mp hPv, fun w hw => ?_⟩
      obtain rfl : v = w := Option.some.inj (hv.symm.trans hw)
      apply (ih hPv hrest).mp
      intro bs hbs u hu
      exact hall (a :: bs) (List.cons_prefix_cons.mpr ⟨rfl, hbs⟩) u
        ((M.runFrom_cons).mpr ⟨v, hv, hu⟩)
    · rintro ⟨hgood, hmeets⟩ bs hbs u hu
      have hPv := (hP s a v hs hv).mpr hgood
      cases bs with
      | nil =>
        obtain rfl : s = u := by simpa using hu
        exact hs
      | cons b bs =>
        obtain ⟨rfl, hpre⟩ := List.cons_prefix_cons.mp hbs
        obtain ⟨w, hw, hlast⟩ := (M.runFrom_cons).mp hu
        obtain rfl : v = w := Option.some.inj (hv.symm.trans hw)
        exact (ih hPv hrest).mpr (hmeets v hv) bs hpre u hlast

/-- **Totality rule.** Where a step keeps a property, and of the actions that meet a condition
those are enabled that meet another one, a schedule of such actions runs with the property in
all its states if and only if all of them meet the other condition. -/
theorem runs_iff {proper good : σ → α → Prop} {P : σ → Prop}
    (hP : ∀ s a t, P s → M.step s a = some t → P t)
    (henabled : ∀ s a, P s → proper s a → ((∃ t, M.step s a = some t) ↔ good s a))
    {s : σ} {as : List α} (hs : P s) (hproper : M.Meets proper s as) :
    (∀ bs, bs <+: as → ∃ u, M.runFrom s bs = some u ∧ P u) ↔ M.Meets good s as := by
  induction as generalizing s with
  | nil =>
    refine ⟨fun _ => trivial, fun _ bs hbs => ?_⟩
    obtain rfl := List.prefix_nil.mp hbs
    exact ⟨s, rfl, hs⟩
  | cons a as ih =>
    have hfirst := henabled s a hs hproper.1
    constructor
    · intro hall
      obtain ⟨u, hu, _⟩ := hall [a] ⟨as, rfl⟩
      obtain ⟨v, hv, _⟩ := (M.runFrom_cons).mp hu
      refine ⟨hfirst.mp ⟨v, hv⟩, fun t ht => ?_⟩
      apply (ih (hP s a t hs ht) (hproper.2 t ht)).mp
      intro bs hbs
      obtain ⟨w, hw, hPw⟩ := hall (a :: bs) (List.cons_prefix_cons.mpr ⟨rfl, hbs⟩)
      obtain ⟨x, hx, hrest⟩ := (M.runFrom_cons).mp hw
      obtain rfl : t = x := Option.some.inj (ht.symm.trans hx)
      exact ⟨w, hrest, hPw⟩
    · rintro ⟨hgood, hmeets⟩ bs hbs
      obtain ⟨t, ht⟩ := hfirst.mpr hgood
      cases bs with
      | nil => exact ⟨s, rfl, hs⟩
      | cons b bs =>
        obtain ⟨rfl, hpre⟩ := List.cons_prefix_cons.mp hbs
        obtain ⟨w, hw, hPw⟩ := (ih (hP s b t hs ht) (hproper.2 t ht)).mpr (hmeets t ht) bs hpre
        exact ⟨w, (M.runFrom_cons).mpr ⟨t, ht, hw⟩, hPw⟩

/-- **Exactness rule.** Where a step keeps a property if and only if it meets the condition,
and no step brings the property back, a schedule ends with the property if and only if all its
steps meet the condition. -/
theorem meets_iff {good : σ → α → Prop} {I P : σ → Prop}
    (hI : ∀ s a t, I s → good s a → M.step s a = some t → I t)
    (hP : ∀ s a t, I s → P s → M.step s a = some t → (P t ↔ good s a))
    (hback : ∀ s a t, M.step s a = some t → P t → P s)
    {s t : σ} {as : List α} (hs : I s) (hstart : P s) (hrun : M.runFrom s as = some t) :
    P t ↔ M.Meets good s as := by
  have hbackRun {s t : σ} {as : List α} (hrun : M.runFrom s as = some t) (ht : P t) : P s := by
    induction as generalizing s with
    | nil =>
      obtain rfl : s = t := by simpa using hrun
      exact ht
    | cons a as ih =>
      obtain ⟨u, hu, hrest⟩ := (M.runFrom_cons).mp hrun
      exact hback s a u hu (ih hrest)
  induction as generalizing s with
  | nil =>
    obtain rfl : s = t := by simpa using hrun
    exact ⟨fun _ => trivial, fun _ => hstart⟩
  | cons a as ih =>
    obtain ⟨u, hu, hrest⟩ := (M.runFrom_cons).mp hrun
    constructor
    · intro ht
      have hPu := hbackRun hrest ht
      have hgood := (hP s a u hs hstart hu).mp hPu
      refine ⟨hgood, fun v hv => ?_⟩
      obtain rfl : u = v := Option.some.inj (hu.symm.trans hv)
      exact (ih (hI s a u hs hgood hu) hPu hrest).mp ht
    · rintro ⟨hgood, hmeets⟩
      have hPu := (hP s a u hs hstart hu).mpr hgood
      exact (ih (hI s a u hs hgood hu) hPu hrest).mpr (hmeets u hu)

/-- The actions of a schedule are matched one by one, each in the state before it. Behind an action
that is not enabled anything goes. -/
def Matches {β : Type*} (matching : σ → α → β → Prop) (s : σ) : List α → List β → Prop
  | [], [] => True
  | a :: as, b :: bs => matching s a b ∧ ∀ t, M.step s a = some t → Matches matching t as bs
  | _, _ => False

/-- **Simulation rule.** Where each step of a machine is matched by one of another machine, from
related states to related states or with neither enabled, so is each schedule. -/
theorem simulation {τ β : Type*} (N : Machine τ β) {R : σ → τ → Prop} {matching : σ → α → β → Prop}
    (hstep : ∀ s t a, R s t → ∃ b, matching s a b ∧ Option.Rel R (M.step s a) (N.step t b))
    {s : σ} {t : τ} (hR : R s t) (as : List α) :
    ∃ bs, M.Matches matching s as bs ∧ Option.Rel R (M.runFrom s as) (N.runFrom t bs) := by
  induction as generalizing s t with
  | nil => exact ⟨[], trivial, .some hR⟩
  | cons a as ih =>
    obtain ⟨b, hb, hrel⟩ := hstep s t a hR
    simp only [runFrom]
    cases hu : M.step s a with
    | none =>
      refine ⟨[b], ⟨hb, fun u hv => ?_⟩, ?_⟩
      · simp [hu] at hv
      · rw [hu] at hrel
        cases hv : N.step t b with
        | none => simp [runFrom, hv]
        | some v =>
          rw [hv] at hrel
          cases hrel
    | some u =>
      rw [hu] at hrel
      cases hv : N.step t b with
      | none =>
        rw [hv] at hrel
        cases hrel
      | some v =>
        rw [hv] at hrel
        cases hrel with
        | some huv =>
          obtain ⟨bs, hbs, hrun⟩ := ih huv
          refine ⟨b :: bs, ⟨hb, fun u' hu' => ?_⟩, ?_⟩
          · obtain rfl : u = u' := Option.some.inj (hu.symm.trans hu')
            exact hbs
          · simpa [runFrom, hv] using hrun

/-- The states along an infinite schedule; where an action is not enabled the state
stays as it is. -/
def follow (s : σ) (script : ℕ → α) : ℕ → σ
  | 0 => s
  | n + 1 => (M.step (follow s script n) (script n)).getD (follow s script n)

/-- **Invariant rule** for infinite schedules. -/
theorem follow_invariant (I : σ → Prop) {s : σ} {script : ℕ → α} (hs : I s)
    (hstep : ∀ n t, I (M.follow s script n) → M.step (M.follow s script n) (script n) = some t →
      I t) (n : ℕ) : I (M.follow s script n) := by
  induction n with
  | zero => exact hs
  | succ n ih =>
    rw [follow]
    cases hnext : M.step (M.follow s script n) (script n) with
    | none => exact ih
    | some t => exact hstep n t ih hnext

/-- **Termination rule.** Where every state that is not final has a rank that the next
state undercuts, a final state is reached. -/
theorem follow_reaches {β : Type*} [Preorder β] [WellFoundedLT β] (rank : σ → β → Prop)
    (final : σ → Prop) {s : σ} {script : ℕ → α} {m : β} (hs : rank s m)
    (hstep : ∀ n m, rank (M.follow s script n) m → final (M.follow s script n) ∨
      ∃ m' < m, rank (M.follow s script (n + 1)) m') :
    ∃ n, final (M.follow s script n) := by
  suffices h : ∀ m n, rank (M.follow s script n) m → ∃ n, final (M.follow s script n) from h m 0 hs
  intro m
  induction m using WellFoundedLT.induction with
  | ind m ih =>
    intro n hrank
    rcases hstep n m hrank with hfinal | ⟨m', hlt, hrank'⟩
    · exact ⟨n, hfinal⟩
    · exact ih m' hlt (n + 1) hrank'

/-- An infinite schedule can be followed in two parts. -/
theorem follow_add (s : σ) (script : ℕ → α) (n m : ℕ) :
    M.follow s script (n + m) = M.follow (M.follow s script n) (fun i => script (n + i)) m := by
  induction m with
  | zero => rfl
  | succ m ih =>
    rw [← Nat.add_assoc, follow, follow, ih]

/-- A state without successors is not left. -/
theorem follow_of_stopped {s : σ} {script : ℕ → α} {n : ℕ}
    (hstop : ∀ a, M.step (M.follow s script n) a = none) {m : ℕ} (hm : n ≤ m) :
    M.follow s script m = M.follow s script n := by
  obtain ⟨k, rfl⟩ := Nat.exists_eq_add_of_le hm
  rw [follow_add]
  apply M.follow_invariant (fun t => t = M.follow s script n) rfl
  intro j t hj hstep
  rw [hj, hstop] at hstep
  simp at hstep

/-- Final states that have no successors are reached neither from nor before a state of
a set that no step leaves and that holds no final state. -/
theorem follow_avoids {s : σ} {script : ℕ → α} (final trap : σ → Prop) {n : ℕ}
    (hfinal : ∀ s a, final s → M.step s a = none) (hdisjoint : ∀ s, trap s → ¬final s)
    (hstep : ∀ s a t, trap s → M.step s a = some t → trap t)
    (htrap : trap (M.follow s script n)) (m : ℕ) : ¬final (M.follow s script m) := by
  intro hm
  rcases le_total n m with hle | hle
  · obtain ⟨k, rfl⟩ := Nat.exists_eq_add_of_le hle
    rw [follow_add] at hm
    exact hdisjoint _ (M.follow_invariant trap htrap (fun j t ht => hstep _ _ t ht) k) hm
  · rw [M.follow_of_stopped (fun a => hfinal _ a hm) hle] at htrap
    exact hdisjoint _ htrap hm

end Machine

end Khttp.Lib
