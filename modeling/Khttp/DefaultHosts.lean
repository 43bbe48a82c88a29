import Khttp.ConfigLoad

/-!
# At most one default host

`config_read_ini_cb` keeps the host that it is reading in a static variable. Before it makes that
host the default it clears the flag of the hosts that `CONFIG_SERVER_FOREACH_HOST` visits: the
macro misses the last of several, and the host in the variable is always that one.
-/

namespace Khttp

/-- What `config_read_ini_cb` keeps from call to call. -/
structure ConfigReader where
  /-- The configuration. -/
  config : ConfigServer
  /-- The static variable `host`: the place of the host that is being read, `none` when null. -/
  host : Option ℕ
  deriving DecidableEq, Repr

/-- A change of the host at a place. -/
def changeHostAt (config : ConfigServer) (place : ℕ) (f : ConfigHost → ConfigHost) : ConfigServer :=
  { config with hosts := config.hosts.modify place f }

/-- The places that `CONFIG_SERVER_FOREACH_HOST` visits: it starts with the first one and goes
on to the place that it has just counted, which is one behind. -/
def foreachPlaces (hostCount : ℕ) : List ℕ := (List.range hostCount).map (· - 1)

/-- `config_read_ini_cb` clears the default flag of the hosts that the macro visits. -/
def clearDefaultsLoop (config : ConfigServer) : ConfigServer :=
  (foreachPlaces config.hosts.length).foldl (fun config place =>
    changeHostAt config place fun host => { host with defaultHost := false }) config

/-- The settings of the host at a place in `config_read_ini_cb`. -/
def configReadHostAt (fs : FileSystem) (config : ConfigServer) (place : ℕ) (name value : Bytes) :
    ConfigServer × ℤ :=
  if strcaseeq (ascii "name") name then
    (changeHostAt config place fun host => { host with hostname := some (cstr value) }, 1)
  else if strcaseeq (ascii "enabled") name then
    (changeHostAt config place fun host =>
      { host with enabled := (yesNo value).getD host.enabled }, 1)
  else if strcaseeq (ascii "default") name then
    match yesNo value with
    | some true =>
      (changeHostAt (clearDefaultsLoop config) place fun host =>
        { host with defaultHost := true }, 1)
    | some false => (changeHostAt config place fun host => { host with defaultHost := false }, 1)
    | none => (config, 1)
  else if strcaseeq (ascii "serve") name then
    match fs.realpath value with
    | none => (config, -1)
    | some serveDir =>
      match fs.opendir serveDir with
      | none => (config, -1)
      | some _ =>
        (changeHostAt config place fun host => { host with serveDir := some serveDir }, 1)
  else if strcaseeq (ascii "index_files") name then
    let indexFiles := (strtok (byte ',') value).map strTrimwhitespace
    (changeHostAt config place fun host => { host with indexFiles }, 1)
  else if strcaseeq (ascii "dir_listings") name then
    (changeHostAt config place fun host =>
      { host with dirListings := (yesNo value).getD host.dirListings }, 1)
  else (config, 1)

/-- `config_read_ini_cb` with its static variable. -/
def configReaderCb (fs : FileSystem) (reader : ConfigReader) (call : IniCall) : ConfigReader × ℤ :=
  let isHost := strcaseeq (ascii "Host") call.sectionName
  match call.setting with
  | none =>
    if isHost then
      let config := configServerAddhost reader.config configHostNew
      (⟨config, some (config.hosts.length - 1)⟩, 1)
    else (reader, 1)
  | some (name, value) =>
    if isHost then
      match reader.host with
      | none => (reader, -1)
      | some place =>
        let (config, result) := configReadHostAt fs reader.config place name value
        ({ reader with config }, result)
    else if strcaseeq (ascii "Server") call.sectionName then
      let (config, result) := configReadServer reader.config name value
      ({ reader with config }, result)
    else (reader, 1)

/-- The calls of the callback that `ini_parse` makes for a new configuration. -/
def configReaderRun (fs : FileSystem) (machine : Bytes) (calls : List IniCall) : ConfigReader :=
  calls.foldl (fun reader call => (configReaderCb fs reader call).1) ⟨configServerNew machine, none⟩

/-- The place of the last host. -/
def lastHost (config : ConfigServer) : Option ℕ :=
  if config.hosts = [] then none else some (config.hosts.length - 1)

/-- The macro visits the first of the hosts, and all of them but the last one. -/
theorem mem_foreachPlaces {hostCount place : ℕ} :
    place ∈ foreachPlaces hostCount ↔ (place = 0 ∧ 0 < hostCount) ∨ place < hostCount - 1 := by
  simp only [foreachPlaces, List.mem_map, List.mem_range]
  constructor
  · rintro ⟨i, hi, rfl⟩
    omega
  · rintro (⟨rfl, hpos⟩ | hlt)
    · exact ⟨0, hpos, rfl⟩
    · exact ⟨place + 1, by omega, by omega⟩

/-- A change made at some places, of which each may come twice. -/
theorem getElem?_foldl_changeHostAt {f : ConfigHost → ConfigHost} (hf : ∀ host, f (f host) = f host)
    (places : List ℕ) (config : ConfigServer) (i : ℕ) :
    (places.foldl (fun config place => changeHostAt config place f) config).hosts[i]? =
      (config.hosts[i]?).map fun host => if i ∈ places then f host else host := by
  induction places generalizing config with
  | nil => simp
  | cons place places ih =>
    rw [List.foldl_cons, ih, changeHostAt, List.getElem?_modify]
    cases config.hosts[i]? with
    | none => rfl
    | some host =>
      by_cases hplace : place = i
      · simp [hplace, hf]
      · simp [hplace, Ne.symm hplace]

/-- A change of hosts leaves the rest of the configuration. -/
theorem foldl_changeHostAt_eq (f : ConfigHost → ConfigHost) (places : List ℕ)
    (config : ConfigServer) :
    places.foldl (fun config place => changeHostAt config place f) config =
      { config with hosts :=
        (places.foldl (fun config place => changeHostAt config place f) config).hosts } := by
  induction places generalizing config with
  | nil => rfl
  | cons place places ih =>
    rw [List.foldl_cons, ih]
    rfl

/-- The loop clears the flags of the first host and of all but the last one. -/
theorem clearDefaultsLoop_eq (config : ConfigServer) :
    clearDefaultsLoop config = clearDefaults config := by
  have hhosts : (clearDefaultsLoop config).hosts = (clearDefaults config).hosts := by
    apply List.ext_getElem?
    intro i
    rw [clearDefaultsLoop, getElem?_foldl_changeHostAt
      (f := fun host => { host with defaultHost := false }) fun _ => rfl,
      clearDefaults, List.getElem?_mapIdx]
    cases hhost : config.hosts[i]? with
    | none => rfl
    | some host =>
      have hlt : i < config.hosts.length := (List.getElem?_eq_some_iff.mp hhost).1
      have hvisited : i ∈ foreachPlaces config.hosts.length ↔
          i = 0 ∨ i < config.hosts.length - 1 := by
        rw [mem_foreachPlaces]
        omega
      simp only [Option.map_some, hvisited]
  rw [clearDefaultsLoop, foldl_changeHostAt_eq]
  exact congrArg (fun hosts => { config with hosts }) hhosts

/-- Reading the host at the last place is reading the last host. -/
theorem configReadHostAt_last (fs : FileSystem) (config : ConfigServer) (name value : Bytes) :
    configReadHostAt fs config (config.hosts.length - 1) name value =
      configReadHost fs config name value := by
  have hclear : (clearDefaults config).hosts.length = config.hosts.length := by
    simp [clearDefaults]
  have hat (other : ConfigServer) (hlength : other.hosts.length = config.hosts.length)
      (f : ConfigHost → ConfigHost) :
      changeHostAt other (config.hosts.length - 1) f = changeHost other f := by
    rw [changeHost, hlength, changeHostAt]
  unfold configReadHostAt
  simp only [clearDefaultsLoop_eq, hat config rfl, hat (clearDefaults config) hclear]
  rfl

/-- A setting of a host adds no host and takes none away. -/
theorem length_configReadHost (fs : FileSystem) (config : ConfigServer) (name value : Bytes) :
    (configReadHost fs config name value).1.hosts.length = config.hosts.length := by
  have hlength := congrArg List.length (configReadHost_spec fs config name value).1
  simpa using hlength

/-- **Step lemma.** While the static variable holds the last host, the callback changes the
configuration as if it read the last host, and the variable holds the last host again. -/
theorem configReaderCb_last (fs : FileSystem) (config : ConfigServer) (call : IniCall) :
    configReaderCb fs ⟨config, lastHost config⟩ call =
      (⟨(configReadIniCb fs config call).1, lastHost (configReadIniCb fs config call).1⟩,
        (configReadIniCb fs config call).2) := by
  obtain ⟨sectionName, setting⟩ := call
  unfold configReaderCb configReadIniCb
  dsimp only
  cases setting with
  | none =>
    dsimp only
    split_ifs
    · simp [lastHost, configServerAddhost]
    · rfl
  | some setting =>
    obtain ⟨name, value⟩ := setting
    dsimp only
    split_ifs with _ hnil
    · simp [lastHost, hnil]
    · have hlength := length_configReadHost fs config name value
      have hne : (configReadHost fs config name value).1.hosts ≠ [] := by
        rw [← List.length_pos_iff, hlength]
        exact List.length_pos_iff.mpr hnil
      have hlast : lastHost (configReadHost fs config name value).1 =
          some (config.hosts.length - 1) := by
        rw [lastHost, if_neg hne, hlength]
      rw [hlast, lastHost, if_neg hnil]
      dsimp only
      rw [configReadHostAt_last]
    · have hhosts := (configReadServer_spec config name value).1
      simp only [lastHost, hhosts]
    · rfl

/-- **Run lemma.** The host that is being read is always the last one. -/
theorem configReaderRun_eq (fs : FileSystem) (machine : Bytes) (calls : List IniCall) :
    configReaderRun fs machine calls =
      ⟨configReadIni fs (configServerNew machine) calls,
        lastHost (configReadIni fs (configServerNew machine) calls)⟩ := by
  have hrun (config : ConfigServer) :
      calls.foldl (fun reader call => (configReaderCb fs reader call).1) ⟨config, lastHost config⟩ =
        ⟨configReadIni fs config calls, lastHost (configReadIni fs config calls)⟩ := by
    induction calls generalizing config with
    | nil => rfl
    | cons call calls ih =>
      rw [List.foldl_cons, configReaderCb_last]
      exact ih _
  exact hrun (configServerNew machine)

namespace IniCall

/-- The call starts a section for a host. -/
def startsHost (call : IniCall) : Bool := call.isHost && call.setting.isNone

/-- The answer that the call gives whether its host is the default. -/
def hostDefault (call : IniCall) : Option Bool :=
  call.hostSetting.bind fun setting =>
    if strcaseeq (ascii "default") setting.1 then yesNo setting.2 else none

end IniCall

/-- How many sections for a host were read, and which of them is the default. -/
abbrev DefaultSection := ℕ × Option ℕ

/-- What a call means for the default: only the last section can take it or give it up. -/
def defaultAfter (call : IniCall) (read : DefaultSection) : DefaultSection :=
  if call.startsHost then (read.1 + 1, read.2)
  else if read.1 = 0 then read
  else
    match call.hostDefault with
    | some true => (read.1, some (read.1 - 1))
    | some false => (read.1, if read.2 = some (read.1 - 1) then none else read.2)
    | none => read

/-- There is a host for each section, and the flag is set for the default one only. -/
structure DefaultIs (hosts : List ConfigHost) (read : DefaultSection) : Prop where
  /-- One host for each section. -/
  length : hosts.length = read.1
  /-- The default is one of them. -/
  lt : ∀ i, read.2 = some i → i < read.1
  /-- The flags. -/
  flag : ∀ (i : ℕ) (host : ConfigHost), hosts[i]? = some host →
    (host.defaultHost = true ↔ read.2 = some i)

namespace DefaultIs

/-- A change of the last host that leaves its flag keeps the default. -/
theorem changeHost_self {config : ConfigServer} {read : DefaultSection}
    {f : ConfigHost → ConfigHost} (hf : ∀ host, (f host).defaultHost = host.defaultHost)
    (h : DefaultIs config.hosts read) : DefaultIs (changeHost config f).hosts read := by
  refine ⟨?_, h.lt, ?_⟩
  · simpa [changeHost] using h.length
  · intro i host hhost
    rw [changeHost, List.getElem?_modify] at hhost
    obtain ⟨old, hold, rfl⟩ := Option.map_eq_some_iff.mp hhost
    rw [← h.flag i old hold]
    split
    · rw [hf]
    · rfl

/-- The last host becomes the default: the loop has cleared the flag of every other one. -/
theorem yes {config : ConfigServer} {read : DefaultSection} (h : DefaultIs config.hosts read)
    (hpos : read.1 ≠ 0) :
    DefaultIs (changeHost (clearDefaults config) fun host =>
      { host with defaultHost := true }).hosts (read.1, some (read.1 - 1)) := by
  have hlength := h.length
  have hcleared : (clearDefaults config).hosts.length = config.hosts.length := by
    simp [clearDefaults]
  refine ⟨?_, ?_, ?_⟩
  · simpa [changeHost, hcleared] using hlength
  · intro i hi
    obtain rfl := Option.some.inj hi
    change read.1 - 1 < read.1
    omega
  · intro i host hhost
    rw [changeHost, List.getElem?_modify, hcleared, hlength, clearDefaults,
      List.getElem?_mapIdx] at hhost
    obtain ⟨changed, hchanged, rfl⟩ := Option.map_eq_some_iff.mp hhost
    obtain ⟨old, hold, rfl⟩ := Option.map_eq_some_iff.mp hchanged
    have hlt := (List.getElem?_eq_some_iff.mp hold).1
    by_cases hlast : read.1 - 1 = i
    · simp [hlast]
    · have hvisited : i = 0 ∨ i < config.hosts.length - 1 := by omega
      simp [hlast, hvisited]

/-- The last host gives up being the default. -/
theorem no {config : ConfigServer} {read : DefaultSection} (h : DefaultIs config.hosts read) :
    DefaultIs (changeHost config fun host => { host with defaultHost := false }).hosts
      (read.1, if read.2 = some (read.1 - 1) then none else read.2) := by
  refine ⟨?_, ?_, ?_⟩
  · simpa [changeHost] using h.length
  · intro i hi
    obtain ⟨_, hread⟩ := Option.ite_none_left_eq_some.mp hi
    exact h.lt i hread
  · intro i host hhost
    rw [changeHost, List.getElem?_modify, h.length] at hhost
    obtain ⟨old, hold, rfl⟩ := Option.map_eq_some_iff.mp hhost
    have hflag := h.flag i old hold
    by_cases hlast : read.1 - 1 = i
    · subst hlast
      simp
    · by_cases hdefault : read.2 = some (read.1 - 1)
      · simp only [hdefault, Option.some.injEq, hlast, iff_false] at hflag
        simp [hlast, hdefault, hflag]
      · simp [hlast, hdefault, hflag]

/-- A new host is not the default. -/
theorem addhost {config : ConfigServer} {read : DefaultSection} (h : DefaultIs config.hosts read) :
    DefaultIs (configServerAddhost config configHostNew).hosts (read.1 + 1, read.2) := by
  refine ⟨?_, ?_, ?_⟩
  · simp [configServerAddhost, h.length]
  · intro i hi
    have hlt := h.lt i hi
    change i < read.1 + 1
    omega
  · intro i host hhost
    rw [configServerAddhost, List.getElem?_append] at hhost
    split at hhost
    · exact h.flag i host hhost
    · next hge =>
      have hnew : host = configHostNew := by
        have hmem := List.mem_of_getElem? hhost
        simpa using hmem
      have hnot : read.2 ≠ some i := by
        intro hi
        have hlt := h.lt i hi
        rw [h.length] at hge
        omega
      simp [hnew, hnot, configHostNew]

/-- A setting of a host changes the default only where it is `default`. -/
theorem configReadHost {config : ConfigServer} {read : DefaultSection} (fs : FileSystem)
    (name value : Bytes) (h : DefaultIs config.hosts read) (hpos : read.1 ≠ 0) :
    DefaultIs (configReadHost fs config name value).1.hosts
      (match if strcaseeq (ascii "default") name then yesNo value else none with
        | some true => (read.1, some (read.1 - 1))
        | some false => (read.1, if read.2 = some (read.1 - 1) then none else read.2)
        | none => read) := by
  have hother (key : Bytes) (hkey : strcaseeq key name = true)
      (hdefault : strcaseeq (ascii "default") key = false) :
      strcaseeq (ascii "default") name = false := (strcaseeq_congr hkey _).trans hdefault
  unfold Khttp.configReadHost
  split
  · next hkey =>
    simp only [hother _ hkey (by decide), Bool.false_eq_true, if_false]
    exact h.changeHost_self fun _ => rfl
  split
  · next hkey =>
    simp only [hother _ hkey (by decide), Bool.false_eq_true, if_false]
    exact h.changeHost_self fun _ => rfl
  split
  · rcases yesNo value with _ | _ | _
    · exact h
    · exact h.no
    · exact h.yes hpos
  split
  · split
    · exact h
    · split
      · exact h
      · exact h.changeHost_self fun _ => rfl
  split
  · exact h.changeHost_self fun _ => rfl
  split
  · exact h.changeHost_self fun _ => rfl
  · exact h

/-- **Step lemma.** After a call the flag is set for the default that the call leaves. -/
theorem configReadIniCb {config : ConfigServer} {read : DefaultSection} (fs : FileSystem)
    (call : IniCall) (h : DefaultIs config.hosts read) :
    DefaultIs (configReadIniCb fs config call).1.hosts (defaultAfter call read) := by
  have hnil : config.hosts = [] ↔ read.1 = 0 := by
    rw [← h.length, List.length_eq_zero_iff]
  obtain ⟨sectionName, setting⟩ := call
  unfold Khttp.configReadIniCb defaultAfter
  simp only [IniCall.startsHost, IniCall.hostDefault, IniCall.hostSetting, IniCall.isHost, hnil]
  cases setting with
  | none =>
    by_cases hhost : strcaseeq (ascii "Host") sectionName = true
    · simp only [hhost, if_true, Option.isNone_none, Bool.and_self]
      exact h.addhost
    · simpa [hhost] using h
  | some setting =>
    obtain ⟨name, value⟩ := setting
    by_cases hhost : strcaseeq (ascii "Host") sectionName = true
    · by_cases hzero : read.1 = 0
      · simpa [hhost, hzero] using h
      · have hread := h.configReadHost fs name value hzero
        simpa [hhost, hzero] using hread
    · have hserver := (configReadServer_spec config name value).1
      by_cases hsection : strcaseeq (ascii "Server") sectionName = true
      · simpa [hhost, hsection, hserver] using h
      · simpa [hhost, hsection] using h

end DefaultIs

/-- **Run lemma.** After every sequence of calls the flag is set for the default only. -/
theorem defaultIs_configReadIni (fs : FileSystem) (machine : Bytes) (calls : List IniCall) :
    DefaultIs (configReadIni fs (configServerNew machine) calls).hosts
      (calls.foldl (fun read call => defaultAfter call read) (0, none)) := by
  have hrun (config : ConfigServer) (read : DefaultSection) (h : DefaultIs config.hosts read) :
      DefaultIs (configReadIni fs config calls).hosts
        (calls.foldl (fun read call => defaultAfter call read) read) := by
    induction calls generalizing config read with
    | nil => exact h
    | cons call calls ih => exact ih _ _ (h.configReadIniCb fs call)
  apply hrun
  refine ⟨rfl, ?_, ?_⟩
  · simp
  · simp [configServerNew]

/-- The sections that are counted are those that start. -/
theorem foldl_defaultAfter_fst (calls : List IniCall) (read : DefaultSection) :
    (calls.foldl (fun read call => defaultAfter call read) read).1 =
      read.1 + calls.countP IniCall.startsHost := by
  induction calls generalizing read with
  | nil => rfl
  | cons call calls ih =>
    rw [List.foldl_cons, ih, List.countP_cons]
    have hstep : (defaultAfter call read).1 = read.1 + if call.startsHost then 1 else 0 := by
      unfold defaultAfter
      by_cases hstarts : call.startsHost = true
      · simp [hstarts]
      · rw [if_neg hstarts, if_neg hstarts]
        split
        · rfl
        · split <;> rfl
    omega

/-- The flag is set for at most one host. -/
theorem DefaultIs.countP_le_one {hosts : List ConfigHost} {read : DefaultSection}
    (h : DefaultIs hosts read) : hosts.countP (·.defaultHost) ≤ 1 := by
  have hone (n : ℕ) (hosts : List ConfigHost) (hflag : ∀ (i : ℕ) (host : ConfigHost),
      hosts[i]? = some host → host.defaultHost = true → read.2 = some (n + i)) :
      hosts.countP (·.defaultHost) ≤ 1 := by
    induction hosts generalizing n with
    | nil => simp
    | cons host hosts ih =>
      have hlater := ih (n + 1) fun i host hhost hdefault => by
        have hplace := hflag (i + 1) host (by simpa using hhost) hdefault
        rw [hplace]
        congr 1
        omega
      by_cases hdefault : host.defaultHost = true
      · have hplace := hflag 0 host rfl hdefault
        have hnone : hosts.countP (·.defaultHost) = 0 := by
          rw [List.countP_eq_zero]
          intro other hmem hother
          obtain ⟨i, hi⟩ := List.mem_iff_getElem?.mp hmem
          have hagain := hflag (i + 1) other (by simpa using hi) hother
          rw [hplace] at hagain
          have := Option.some.inj hagain
          omega
        rw [List.countP_cons, hnone]
        split <;> omega
      · rw [List.countP_cons, if_neg hdefault]
        exact hlater
  apply hone 0
  intro i host hhost hdefault
  rw [Nat.zero_add]
  exact (h.flag i host hhost).mp hdefault

/-- What holds of the default hosts after some calls of the callback. -/
structure OneDefault (calls : List IniCall) (reader : ConfigReader) : Prop where
  /-- At most one host is the default. -/
  atMostOne : reader.config.hosts.countP (·.defaultHost) ≤ 1
  /-- There is a host for each section that has started, in their order. -/
  sections : reader.config.hosts.length = calls.countP IniCall.startsHost
  /-- The static variable holds the host of the most recent section. -/
  recent : reader.host.elim 0 (· + 1) = calls.countP IniCall.startsHost
  /-- After `default=yes` the default host is the one of the most recent section. -/
  yes : ∀ call, calls.getLast? = some call → call.hostDefault = some true →
    ∀ (i : ℕ) (host : ConfigHost), reader.config.hosts[i]? = some host →
      (host.defaultHost = true ↔ reader.host = some i)

/-- After every sequence of calls at most one host is the default, and after `default=yes` it is
the host of the most recent section. -/
theorem oneDefault_configReaderRun (fs : FileSystem) (machine : Bytes) (calls : List IniCall) :
    OneDefault calls (configReaderRun fs machine calls) := by
  have hdefault := defaultIs_configReadIni fs machine calls
  have hcount := foldl_defaultAfter_fst calls (0, none)
  rw [Nat.zero_add] at hcount
  have hlength := hdefault.length
  rw [configReaderRun_eq]
  refine ⟨hdefault.countP_le_one, hlength.trans hcount, ?_, ?_⟩
  · rw [← hcount, ← hlength, lastHost]
    split
    · next hnil => simp [hnil]
    · next hne =>
      have hpos := List.length_pos_iff.mpr hne
      simp only [Option.elim_some]
      omega
  · intro call hcall hyes i host hhost
    obtain ⟨before, rfl⟩ := List.getLast?_eq_some_iff.mp hcall
    have hne : (configReadIni fs (configServerNew machine) (before ++ [call])).hosts ≠ [] :=
      List.ne_nil_of_mem (List.mem_of_getElem? hhost)
    have hstarts : call.startsHost = false := by
      cases hsetting : call.setting with
      | none => simp [IniCall.hostDefault, IniCall.hostSetting, hsetting] at hyes
      | some setting => simp [IniCall.startsHost, hsetting]
    rw [hdefault.flag i host hhost, lastHost, if_neg hne, hlength]
    rw [← List.length_pos_iff, hlength] at hne
    rw [List.foldl_append, List.foldl_cons, List.foldl_nil] at hne ⊢
    generalize before.foldl (fun read call => defaultAfter call read) (0, none) = read at hne ⊢
    have hpos : read.1 ≠ 0 := by
      intro hzero
      simp [defaultAfter, hstarts, hzero] at hne
    simp [defaultAfter, hstarts, hpos, hyes]

end Khttp
