import Khttp.Config

/-!
# Which host answers for a name

`config_server_gethost` looks for the name among the hosts that `CONFIG_SERVER_FOREACH_HOST`
visits and falls back on the default host. The macro advances one step late, so it visits
the first host twice and never the last of several.
-/

namespace Khttp

/-- The host has this name, ignoring case. -/
def ConfigHost.isNamed (name : Option Bytes) (host : ConfigHost) : Bool :=
  match name, host.hostname with
  | some name, some hostname => strcaseeq name hostname
  | _, _ => false

/-- The host that answers for a name: the first of that name, else the default host. -/
def hostFor (hosts : List ConfigHost) (name : Option Bytes) : Option ConfigHost :=
  (hosts.find? (·.isNamed name)).or (hosts.find? (·.defaultHost))

/-- The last of several hosts is not the one that answers for the name: another has the name, or
it has neither the name nor is the default. -/
def LastUnneeded (hosts : List ConfigHost) (name : Option Bytes) : Prop :=
  hosts.length ≤ 1 ∨ (∃ host ∈ hosts.dropLast, host.isNamed name = true) ∨
    ∀ host ∈ hosts.getLast?, host.isNamed name = false ∧ host.defaultHost = false

instance (hosts : List ConfigHost) (name : Option Bytes) : Decidable (LastUnneeded hosts name) :=
  instDecidableOr

/-- The loop finds the first host of the name, or else remembers the last default host. -/
theorem gethostLoop_eq {name : Option Bytes} {defaulthost : Option ConfigHost}
    {hosts : List ConfigHost} (hnamed : ∀ host ∈ hosts, host.hostname ≠ none) :
    gethostLoop name defaulthost hosts = some ((hosts.find? (·.isNamed name)).or
      (hosts.foldl (fun d host => if host.defaultHost then some host else d) defaulthost)) := by
  induction hosts generalizing defaulthost with
  | nil => rfl
  | cons host rest ih =>
    have hrest : ∀ host ∈ rest, host.hostname ≠ none := fun h hh => hnamed h (by simp [hh])
    obtain ⟨hostname, hhostname⟩ := Option.ne_none_iff_exists'.mp (hnamed host (by simp))
    unfold gethostLoop
    cases name with
    | none =>
      have hno : host.isNamed none = false := rfl
      rw [hhostname]
      simp only [List.find?_cons, hno, List.foldl_cons]
      exact ih hrest
    | some name =>
      have his : host.isNamed (some name) = strcaseeq name hostname := by
        simp [ConfigHost.isNamed, hhostname]
      rw [hhostname]
      simp only [List.find?_cons, his, List.foldl_cons]
      by_cases heq : strcaseeq name hostname = true
      · simp [heq]
      · simp only [heq, Bool.false_eq_true, if_false]
        exact ih hrest

/-- Where all default hosts are the same, the last one remembered is the first one found. -/
theorem foldl_default {hosts : List ConfigHost} {defaulthost : Option ConfigHost}
    (hone : ∀ a ∈ hosts, ∀ b ∈ hosts, a.defaultHost = true → b.defaultHost = true → a = b) :
    hosts.foldl (fun d host => if host.defaultHost then some host else d) defaulthost =
      (hosts.find? (·.defaultHost)).or defaulthost := by
  induction hosts generalizing defaulthost with
  | nil => rfl
  | cons host rest ih =>
    have hrest := fun a ha b hb => hone a (List.mem_cons_of_mem _ ha) b (List.mem_cons_of_mem _ hb)
    rw [List.foldl_cons, ih hrest, List.find?_cons]
    by_cases hdefault : host.defaultHost = true
    · have hsame : (rest.find? (·.defaultHost)).or (some host) = some host := by
        cases hfind : rest.find? (·.defaultHost) with
        | none => rfl
        | some other =>
          have hother := hone other (List.mem_cons_of_mem _ (List.mem_of_find?_eq_some hfind))
            host (by simp) (List.find?_some hfind) hdefault
          rw [hother]
          rfl
      simp [hdefault, hsame]
    · simp [hdefault]

/-- The hosts that the macro visits hold the same as all hosts but the last of several. -/
theorem find?_foreachHost (p : ConfigHost → Bool) (hosts : List ConfigHost) :
    (foreachHost hosts).find? p =
      if hosts.length ≤ 1 then hosts.find? p else hosts.dropLast.find? p := by
  match hosts with
  | [] => rfl
  | [host] => simp [foreachHost]
  | first :: second :: rest =>
    have hvisited : foreachHost (first :: second :: rest) =
        first :: (first :: second :: rest).dropLast := by
      simp [foreachHost, List.dropLast_eq_take]
    have hlong : ¬(first :: second :: rest).length ≤ 1 := by simp
    rw [hvisited, if_neg hlong, List.dropLast_cons_cons, List.find?_cons, List.find?_cons]
    split <;> rfl

/-- Default hosts of which there is at most one are all the same. -/
theorem default_unique {hosts : List ConfigHost} (h : hosts.countP (·.defaultHost) ≤ 1) :
    ∀ a ∈ hosts, ∀ b ∈ hosts, a.defaultHost = true → b.defaultHost = true → a = b := by
  intro a ha b hb hda hdb
  rw [List.countP_eq_length_filter] at h
  have hmema : a ∈ hosts.filter (·.defaultHost) := List.mem_filter.mpr ⟨ha, hda⟩
  have hmemb : b ∈ hosts.filter (·.defaultHost) := List.mem_filter.mpr ⟨hb, hdb⟩
  generalize hosts.filter (·.defaultHost) = defaults at h hmema hmemb
  match defaults with
  | [] => simp at hmema
  | [host] => rw [List.mem_singleton.mp hmema, List.mem_singleton.mp hmemb]
  | _ :: _ :: _ => simp at h

/-- The search goes through the hosts but the last of several. -/
theorem configServerGethost_eq {config : ConfigServer} {name : Option Bytes}
    (hnamed : ∀ host ∈ config.hosts, host.hostname ≠ none)
    (hdefault : config.hosts.countP (·.defaultHost) ≤ 1) :
    configServerGethost config name =
      some (hostFor (if config.hosts.length ≤ 1 then config.hosts else config.hosts.dropLast)
        name) := by
  have hmem : ∀ host ∈ foreachHost config.hosts, host ∈ config.hosts := fun host hhost => by
    rcases List.mem_append.mp hhost with hfirst | hothers
    · exact List.mem_of_mem_take hfirst
    · exact List.mem_of_mem_take hothers
  have hone := default_unique hdefault
  rw [configServerGethost, gethostLoop_eq fun host hhost => hnamed host (hmem host hhost),
    foldl_default fun a ha b hb => hone a (hmem a ha) b (hmem b hb), find?_foreachHost,
    find?_foreachHost, Option.or_none]
  split <;> rfl

/-- **Which lookups are right.** In a configuration whose hosts all have a name and of which at
most one is the default, the host that answers for a name is found if and only if it is not
the last of several. -/
theorem configServerGethost_iff {config : ConfigServer} {name : Option Bytes}
    (hnamed : ∀ host ∈ config.hosts, host.hostname ≠ none)
    (hdefault : config.hosts.countP (·.defaultHost) ≤ 1) :
    configServerGethost config name = some (hostFor config.hosts name) ↔
      LastUnneeded config.hosts name := by
  rw [configServerGethost_eq hnamed hdefault]
  by_cases hshort : config.hosts.length ≤ 1
  · rw [if_pos hshort]
    exact ⟨fun _ => Or.inl hshort, fun _ => rfl⟩
  obtain ⟨init, last, hhosts⟩ : ∃ init last, config.hosts = init ++ [last] := by
    rcases List.eq_nil_or_concat config.hosts with hnil | ⟨init, last, hconcat⟩
    · simp [hnil] at hshort
    · exact ⟨init, last, by rw [hconcat, List.concat_eq_append]⟩
  have hunique := default_unique hdefault
  rw [if_neg hshort, LastUnneeded, hhosts, List.dropLast_concat, List.getLast?_concat]
  rw [hhosts] at hdefault hshort
  simp only [Option.some.injEq, hshort, false_or, Option.mem_some_iff, forall_eq', hostFor,
    List.find?_append, List.find?_singleton]
  cases hfound : init.find? (·.isNamed name) with
  | some host =>
    have hex : ∃ host ∈ init, host.isNamed name = true :=
      ⟨host, List.mem_of_find?_eq_some hfound, List.find?_some hfound⟩
    simp [hex]
  | none =>
    have hnone := List.find?_eq_none.mp hfound
    have hnot : ¬∃ host ∈ init, host.isNamed name = true := fun ⟨host, hhost, his⟩ =>
      hnone host hhost his
    simp only [hnot, false_or, Option.none_or]
    by_cases his : last.isNamed name = true
    · -- the missed host is another one than any default host found
      have hne : init.find? (·.defaultHost) ≠ some last := fun hlast =>
        hnone last (List.mem_of_find?_eq_some hlast) his
      simp [his, hne]
    · by_cases hlast : last.defaultHost = true
      · have hothers : init.find? (·.defaultHost) = none := by
          rw [List.find?_eq_none]
          intro host hhost hd
          rw [List.countP_append, List.countP_singleton, if_pos hlast] at hdefault
          have hzero : init.countP (·.defaultHost) = 0 := by omega
          exact List.countP_eq_zero.mp hzero host hhost hd
        simp [his, hlast, hothers]
      · simp [his, hlast]

/-- A host of a name, and whether it is the default. -/
def namedHost (name : String) (defaultHost : Bool) : ConfigHost :=
  { configHostNew with hostname := some (ascii name), defaultHost }

/-- Two hosts, the second of which is the default. -/
def twoHosts : ConfigServer :=
  configServerAddhost (configServerAddhost (configServerNew []) (namedHost "a" false))
    (namedHost "b" true)

/-- The first of two hosts is found. -/
theorem configServerGethost_first :
    configServerGethost twoHosts (some (ascii "A")) =
      some (hostFor twoHosts.hosts (some (ascii "A"))) :=
  (configServerGethost_iff (by decide) (by decide)).mpr (by decide)

/-- The last of two hosts is found neither by its name nor as the default. -/
theorem configServerGethost_last :
    (∀ host ∈ twoHosts.hosts, host.hostname ≠ none) ∧
      twoHosts.hosts.countP (·.defaultHost) ≤ 1 ∧
      configServerGethost twoHosts (some (ascii "b")) = some none ∧
      hostFor twoHosts.hosts (some (ascii "b")) = some (namedHost "b" true) := by
  decide

end Khttp
