import Khttp.DefaultHosts
import Khttp.Lib.Machine

/-!
# Tearing down a configuration

`config_server_delete` applies `config_host_delete` to what `CONFIG_SERVER_FOREACH_HOST` visits.
With more than one host the macro comes to the first one twice and never to the last one.
-/

namespace Khttp

open Lib

/-- A configuration and the hosts that were made, as handles. -/
structure HostOwner where
  /-- How often each host that was made has been released. -/
  released : List ℕ
  /-- `config->hosts`: the handles of the hosts that were added. -/
  hosts : List ℕ
  deriving DecidableEq, Repr

/-- What is done to a configuration before it is torn down. -/
inductive HostAction where
  /-- `config_host_new`. -/
  | hostNew
  /-- `config_server_addhost` with a host that was made. -/
  | addhost (handle : ℕ)
  deriving DecidableEq, Repr

namespace HostOwner

/-- `config_host_new` makes a live host, and `config_server_addhost` stores it behind the others. -/
def step (s : HostOwner) : HostAction → Option HostOwner
  | .hostNew => some { s with released := s.released ++ [0] }
  | .addhost handle =>
    if handle < s.released.length then
      some { s with hosts := s.hosts ++ [handle] }
    else none

/-- `config_host_delete`. -/
def hostDelete (s : HostOwner) (handle : ℕ) : HostOwner :=
  { s with released := s.released.modify handle (· + 1) }

/-- `config_server_delete`, as far as the hosts. It has no result where a host is read outside the
array. -/
def delete (s : HostOwner) : Option HostOwner :=
  (foreachPlaces s.hosts.length).foldlM (fun t place => (s.hosts[place]?).map t.hostDelete) s

/-- The hosts that were added were made, and none was released yet. -/
structure Live (s : HostOwner) : Prop where
  /-- Every host that was added was made. -/
  made : ∀ handle ∈ s.hosts, handle < s.released.length
  /-- No host was released. -/
  live : ∀ count ∈ s.released, count = 0

/-- Tearing the configuration down releases every host that was added once, and no other. -/
def TornDown (s : HostOwner) : Prop :=
  ∃ t, s.delete = some t ∧ t.released.length = s.released.length ∧
    ∀ (handle count : ℕ), t.released[handle]? = some count →
      count = if handle ∈ s.hosts then 1 else 0

end HostOwner

/-- A new configuration to which hosts are added. -/
def hostOwners : Machine HostOwner HostAction := ⟨⟨[], []⟩, HostOwner.step⟩

namespace HostOwner

variable {s t : HostOwner}

/-- **Step lemma.** Making and adding hosts keeps them live. -/
theorem Live.step {a : HostAction} (h : s.Live) (hstep : s.step a = some t) : t.Live := by
  cases a with
  | hostNew =>
    obtain rfl := Option.some.inj hstep
    refine ⟨fun handle hmem => ?_, fun count hmem => ?_⟩
    · have hlt := h.made handle hmem
      rw [List.length_append]
      omega
    · rcases List.mem_append.mp hmem with hold | hnew
      · exact h.live count hold
      · exact List.mem_singleton.mp hnew
  | addhost handle =>
    obtain ⟨hmade, heq⟩ := Option.ite_none_right_eq_some.mp hstep
    obtain rfl := Option.some.inj heq
    refine ⟨fun other hmem => ?_, h.live⟩
    rcases List.mem_append.mp hmem with hold | hthis
    · exact h.made other hold
    · exact (List.mem_singleton.mp hthis) ▸ hmade

/-- **Run lemma.** The hosts of a configuration are live until it is torn down. -/
theorem live_run {actions : List HostAction} (hrun : hostOwners.run actions = some s) : s.Live :=
  hostOwners.invariant_of_step (fun _ _ _ h hstep => Live.step h hstep)
    ⟨by simp [hostOwners], by simp [hostOwners]⟩ hrun

/-- What the loop over some places of the array does: each place releases the host there. -/
theorem foldlM_hostDelete {hosts places : List ℕ} (hplaces : ∀ place ∈ places, place < hosts.length)
    (s : HostOwner) :
    ∃ t, places.foldlM (fun t place => (hosts[place]?).map t.hostDelete) s = some t ∧
      t.released.length = s.released.length ∧ ∀ handle : ℕ, t.released[handle]? =
        (s.released[handle]?).map
          (· + places.countP fun place => hosts[place]? == some handle) := by
  induction places generalizing s with
  | nil => exact ⟨s, rfl, rfl, by simp⟩
  | cons place places ih =>
    have hplace := hplaces place List.mem_cons_self
    obtain ⟨t, hloop, hlength, hcount⟩ :=
      ih (fun p hp => hplaces p (List.mem_cons_of_mem _ hp)) (s.hostDelete hosts[place])
    refine ⟨t, ?_, ?_, fun handle => ?_⟩
    · rw [List.foldlM_cons, List.getElem?_eq_getElem hplace]
      exact hloop
    · rw [hlength, hostDelete, List.length_modify]
    · rw [hcount, hostDelete, List.getElem?_modify, Option.map_eq_map, Option.map_map,
        List.countP_cons, List.getElem?_eq_getElem hplace]
      congr 1
      funext count
      by_cases hsame : hosts[place] = handle
      · simp [hsame]
        omega
      · simp [hsame]

/-- What tearing a configuration down does to the hosts that were made. -/
theorem exists_delete (s : HostOwner) :
    ∃ t, s.delete = some t ∧ t.released.length = s.released.length ∧
      ∀ handle : ℕ, t.released[handle]? = (s.released[handle]?).map (· +
        (foreachPlaces s.hosts.length).countP fun place => s.hosts[place]? == some handle) := by
  apply foldlM_hostDelete
  intro place hplace
  have hvisited := mem_foreachPlaces.mp hplace
  omega

/-- The macro visits the first of several hosts twice. -/
theorem two_le_countP_first {handle : ℕ} {rest : List ℕ} (hrest : rest ≠ []) :
    2 ≤ (foreachPlaces (handle :: rest).length).countP
      fun place => (handle :: rest)[place]? == some handle := by
  obtain ⟨second, rest, rfl⟩ := List.exists_cons_of_ne_nil hrest
  have hplaces : foreachPlaces (handle :: second :: rest).length =
      0 :: 0 :: (List.range rest.length).map (· + 1) := by
    simp [foreachPlaces, List.range_succ_eq_map, Function.comp_def]
  rw [hplaces]
  simp only [List.countP_cons, List.getElem?_cons_zero, beq_self_eq_true, if_true]
  omega

/-- A live configuration is torn down right exactly where it has at most one host. -/
theorem Live.tornDown_iff_le_one (h : s.Live) : s.TornDown ↔ s.hosts.length ≤ 1 := by
  obtain ⟨t, hdelete, hlength, hcount⟩ := s.exists_delete
  constructor
  · rintro ⟨u, hu, _, honce⟩
    obtain rfl : t = u := Option.some.inj (hdelete.symm.trans hu)
    by_contra hmany
    cases hhosts : s.hosts with
    | nil => simp [hhosts] at hmany
    | cons handle rest =>
      have hmem : handle ∈ s.hosts := by simp [hhosts]
      have hlt := h.made handle hmem
      have hlive := h.live _ (List.getElem_mem hlt)
      have hfirst := hcount handle
      rw [List.getElem?_eq_getElem hlt, hlive, Option.map_some] at hfirst
      have hone := honce handle _ hfirst
      rw [if_pos hmem] at hone
      have htwo := @two_le_countP_first handle rest (by
        rintro rfl
        simp [hhosts] at hmany)
      rw [hhosts] at hone
      omega
  · intro hfew
    refine ⟨t, hdelete, hlength, fun handle count hhandle => ?_⟩
    rw [hcount] at hhandle
    obtain ⟨before, hbefore, rfl⟩ := Option.map_eq_some_iff.mp hhandle
    obtain rfl := h.live before (List.mem_of_getElem? hbefore)
    have hcases : s.hosts = [] ∨ ∃ only, s.hosts = [only] := by
      rcases Nat.le_one_iff_eq_zero_or_eq_one.mp hfew with hzero | hone
      · exact Or.inl (List.length_eq_zero_iff.mp hzero)
      · exact Or.inr (List.length_eq_one_iff.mp hone)
    rcases hcases with hnil | ⟨only, honly⟩
    · simp [hnil, foreachPlaces]
    · by_cases hsame : only = handle
      · simp [honly, foreachPlaces, hsame]
      · simp [honly, foreachPlaces, hsame, Ne.symm hsame]

end HostOwner

/-- A configuration, whatever hosts were added to it, is torn down right exactly where it has at
most one. -/
theorem tornDown_iff {actions : List HostAction} {s : HostOwner}
    (hrun : hostOwners.run actions = some s) : s.TornDown ↔ s.hosts.length ≤ 1 :=
  (HostOwner.live_run hrun).tornDown_iff_le_one

/-- Of two hosts that are made the second is added and released. -/
theorem tornDown_second : (⟨[0, 0], [1]⟩ : HostOwner).TornDown :=
  have hrun : hostOwners.run [.hostNew, .hostNew, .addhost 1] = some ⟨[0, 0], [1]⟩ := by decide
  (tornDown_iff hrun).mpr (by decide)

/-- Of two hosts that are added the first is released twice and the second never. -/
theorem not_tornDown_pair :
    hostOwners.run [.hostNew, .hostNew, .addhost 0, .addhost 1] = some ⟨[0, 0], [0, 1]⟩ ∧
      HostOwner.delete ⟨[0, 0], [0, 1]⟩ = some ⟨[2, 0], [0, 1]⟩ ∧
      ¬ (⟨[0, 0], [0, 1]⟩ : HostOwner).TornDown := by
  have hdelete : HostOwner.delete ⟨[0, 0], [0, 1]⟩ = some ⟨[2, 0], [0, 1]⟩ := by decide
  refine ⟨by decide, hdelete, ?_⟩
  rintro ⟨t, ht, _, honce⟩
  obtain rfl := Option.some.inj (hdelete.symm.trans ht)
  exact absurd (honce 1 0 rfl) (by decide)

end Khttp
