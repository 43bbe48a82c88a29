import Khttp.FileSystem
import Mathlib.Algebra.Group.Int.Defs

/-!
# The configuration

`config.c`: the hosts of the server, the search for the host of a request and the
callback that reads the configuration file. Every directory that the callback
stores is canonical.
-/

namespace Khttp

open Lib

/-- `config_host`. -/
structure ConfigHost where
  /-- The name of the host, `none` when null. -/
  hostname : Option Bytes
  /-- Whether it answers for unknown names. -/
  defaultHost : Bool
  /-- Whether it is enabled. -/
  enabled : Bool
  /-- The directory it serves, `none` when null. -/
  serveDir : Option Bytes
  /-- The names of its index files. -/
  indexFiles : List Bytes
  /-- Whether it lists directories without an index file. -/
  dirListings : Bool
  deriving DecidableEq, Repr

/-- `config_server`. -/
structure ConfigServer where
  /-- The name of the server. -/
  servername : Bytes
  /-- The address of the administrator. -/
  administrator : Bytes
  /-- The port it listens on. -/
  listenPort : UInt16
  /-- The hosts. -/
  hosts : List ConfigHost
  deriving DecidableEq, Repr

/-- `config_server_new` on a machine with this name. -/
def configServerNew (machine : Bytes) : ConfigServer := ⟨cstr machine, ascii "localhost", 80, []⟩

/-- `config_server_addhost`. -/
def configServerAddhost (config : ConfigServer) (host : ConfigHost) : ConfigServer :=
  { config with hosts := config.hosts ++ [host] }

/-- `config_host_new`. -/
def configHostNew : ConfigHost := ⟨none, false, true, none, [ascii "index.html"], true⟩

/-- The hosts that `CONFIG_SERVER_FOREACH_HOST` visits: the first one, and then as many as
there are but one, from the first one on. -/
def foreachHost (hosts : List ConfigHost) : List ConfigHost :=
  hosts.take 1 ++ hosts.take (hosts.length - 1)

/-- The loop of `config_server_gethost`. It has no result where the name of a host is
null and a name is asked for. -/
def gethostLoop (name : Option Bytes) (defaulthost : Option ConfigHost) :
    List ConfigHost → Option (Option ConfigHost)
  | [] => some defaulthost
  | host :: rest =>
    let defaulthost := if host.defaultHost then some host else defaulthost
    match name, host.hostname with
    | some _, none => none
    | some name, some hostname =>
      if strcaseeq name hostname then some (some host) else gethostLoop (some name) defaulthost rest
    | none, _ => gethostLoop none defaulthost rest

/-- `config_server_gethost`. -/
def configServerGethost (config : ConfigServer) (name : Option Bytes) :
    Option (Option ConfigHost) :=
  gethostLoop name none (foreachHost config.hosts)

/-- `isspace` in the C locale. -/
def isspace (c : UInt8) : Bool := c = 32 || (9 ≤ c && c ≤ 13)

/-- `str_trimwhitespace`. -/
def strTrimwhitespace (str : Bytes) : Bytes :=
  (((cstr str).dropWhile isspace).reverse.dropWhile isspace).reverse

/-- `strtol` in base ten. -/
def strtol (text : Bytes) : ℤ :=
  let text := (cstr text).dropWhile isspace
  let (negative, digits) := match text with
    | [] => (false, [])
    | c :: rest =>
      if c = byte '-' then (true, rest) else if c = byte '+' then (false, rest) else (false, text)
  let isDigit (c : UInt8) : Bool := byte '0' ≤ c && c ≤ byte '9'
  let magnitude := (digits.takeWhile isDigit).foldl (fun v c => 10 * v + (c - byte '0').toNat) 0
  if negative then -(min magnitude (2 ^ 63) : ℕ) else (min magnitude (2 ^ 63 - 1) : ℕ)

/-- `strtok_r` until it finds nothing more. -/
def strtok (delimiter : UInt8) (text : Bytes) : List Bytes :=
  ((cstr text).splitOn delimiter).filter (· ≠ [])

/-- A change of the host that the callback is reading, which is the one added last. -/
def changeHost (config : ConfigServer) (f : ConfigHost → ConfigHost) : ConfigServer :=
  { config with hosts := config.hosts.modify (config.hosts.length - 1) f }

/-- The loop over the hosts in `config_read_ini_cb`, which visits the first one and all but
the last one. -/
def clearDefaults (config : ConfigServer) : ConfigServer :=
  let hosts := config.hosts.mapIdx fun i host =>
    if i = 0 ∨ i < config.hosts.length - 1 then { host with defaultHost := false } else host
  { config with hosts }

/-- A setting that is either `yes` or `no`. -/
def yesNo (value : Bytes) : Option Bool :=
  if strcaseeq value (ascii "yes") then some true
  else if strcaseeq value (ascii "no") then some false
  else none

/-- The settings of a host in `config_read_ini_cb`. -/
def configReadHost (fs : FileSystem) (config : ConfigServer) (name value : Bytes) :
    ConfigServer × ℤ :=
  if strcaseeq (ascii "name") name then
    (changeHost config fun host => { host with hostname := some (cstr value) }, 1)
  else if strcaseeq (ascii "enabled") name then
    (changeHost config fun host => { host with enabled := (yesNo value).getD host.enabled }, 1)
  else if strcaseeq (ascii "default") name then
    match yesNo value with
    | some true =>
      (changeHost (clearDefaults config) fun host => { host with defaultHost := true }, 1)
    | some false => (changeHost config fun host => { host with defaultHost := false }, 1)
    | none => (config, 1)
  else if strcaseeq (ascii "serve") name then
    match fs.realpath value with
    | none => (config, -1)
    | some serveDir =>
      match fs.opendir serveDir with
      | none => (config, -1)
      | some _ => (changeHost config fun host => { host with serveDir := some serveDir }, 1)
  else if strcaseeq (ascii "index_files") name then
    let indexFiles := (strtok (byte ',') value).map strTrimwhitespace
    (changeHost config fun host => { host with indexFiles }, 1)
  else if strcaseeq (ascii "dir_listings") name then
    (changeHost config fun host =>
      { host with dirListings := (yesNo value).getD host.dirListings }, 1)
  else (config, 1)

/-- The settings of the server in `config_read_ini_cb`. -/
def configReadServer (config : ConfigServer) (name value : Bytes) : ConfigServer × ℤ :=
  if strcaseeq (ascii "name") name then ({ config with servername := cstr value }, 1)
  else if strcaseeq (ascii "admin") name then ({ config with administrator := cstr value }, 1)
  else if strcaseeq (ascii "listen") name then
    ({ config with listenPort := (strtol value % 2 ^ 16).toNat.toUInt16 }, -1)
  else (config, 1)

/-- A call of `config_read_ini_cb`: a section, and a setting in it unless the section
starts there. -/
structure IniCall where
  /-- The section. -/
  sectionName : Bytes
  /-- The name and the value of the setting. -/
  setting : Option (Bytes × Bytes)
  deriving DecidableEq, Repr

/-- `config_read_ini_cb`. -/
def configReadIniCb (fs : FileSystem) (config : ConfigServer) (call : IniCall) :
    ConfigServer × ℤ :=
  let isHost := strcaseeq (ascii "Host") call.sectionName
  match call.setting with
  | none =>
    if isHost then (configServerAddhost config configHostNew, 1) else (config, 1)
  | some (name, value) =>
    if isHost then
      if config.hosts = [] then (config, -1) else configReadHost fs config name value
    else if strcaseeq (ascii "Server") call.sectionName then configReadServer config name value
    else (config, 1)

/-- `ini_parse`, which goes on after every call: no result of the callback is zero. -/
def configReadIni (fs : FileSystem) (config : ConfigServer) (calls : List IniCall) : ConfigServer :=
  calls.foldl (fun config call => (configReadIniCb fs config call).1) config

/-- The host serves no directory or a canonical one. -/
def ConfigHost.ServesCanonical (host : ConfigHost) : Prop :=
  ∀ serveDir, host.serveDir = some serveDir → ∃ dir : Place, serveDir = render dir

/-- Every host serves no directory or a canonical one. -/
def ConfigServer.AllCanonical (config : ConfigServer) : Prop :=
  ∀ host ∈ config.hosts, host.ServesCanonical

/-- A change of the last host that keeps it canonical keeps all hosts canonical. -/
theorem allCanonical_changeHost {config : ConfigServer} {f : ConfigHost → ConfigHost}
    (hf : ∀ host, host.ServesCanonical → (f host).ServesCanonical) (h : config.AllCanonical) :
    (changeHost config f).AllCanonical := by
  intro host hmem
  obtain ⟨i, hi, rfl⟩ := List.mem_iff_getElem.mp hmem
  simp only [changeHost, List.getElem_modify]
  split
  · exact hf _ (h _ (List.getElem_mem _))
  · exact h _ (List.getElem_mem _)

/-- Clearing the default flags keeps all hosts canonical. -/
theorem allCanonical_clearDefaults {config : ConfigServer} (h : config.AllCanonical) :
    (clearDefaults config).AllCanonical := by
  intro host hmem
  obtain ⟨i, hi, rfl⟩ := List.mem_iff_getElem.mp hmem
  have hlt : i < config.hosts.length := by simpa [clearDefaults] using hi
  have hold : config.hosts[i].ServesCanonical := h _ (List.getElem_mem hlt)
  simp only [clearDefaults, List.getElem_mapIdx]
  split
  · exact hold
  · exact hold

/-- A setting of a host keeps all hosts canonical: a directory is stored through `realpath`. -/
theorem allCanonical_configReadHost (fs : FileSystem) {config : ConfigServer} (name value : Bytes)
    (h : config.AllCanonical) : (configReadHost fs config name value).1.AllCanonical := by
  unfold configReadHost
  split_ifs
  · exact allCanonical_changeHost (fun _ h => h) h
  · exact allCanonical_changeHost (fun _ h => h) h
  · split
    · exact allCanonical_changeHost (fun _ h => h) (allCanonical_clearDefaults h)
    · exact allCanonical_changeHost (fun _ h => h) h
    · exact h
  · split
    · exact h
    · next serveDir hreal =>
      obtain ⟨dir, _, hdir⟩ := Option.map_eq_some_iff.mp hreal
      split
      · exact h
      · apply allCanonical_changeHost _ h
        intro _ _ stored hstored
        exact ⟨dir, (Option.some.inj hstored).symm.trans hdir.symm⟩
  · exact allCanonical_changeHost (fun _ h => h) h
  · exact allCanonical_changeHost (fun _ h => h) h
  · exact h

/-- A call of the callback keeps all hosts canonical. -/
theorem allCanonical_configReadIniCb (fs : FileSystem) {config : ConfigServer} (call : IniCall)
    (h : config.AllCanonical) : (configReadIniCb fs config call).1.AllCanonical := by
  obtain ⟨sectionName, setting⟩ := call
  unfold configReadIniCb
  dsimp only
  cases setting with
  | none =>
    dsimp only
    split_ifs
    · intro host hmem
      rcases List.mem_append.mp hmem with hold | hnew
      · exact h host hold
      · rw [List.mem_singleton.mp hnew]
        intro serveDir hnone
        exact absurd hnone (by simp [configHostNew])
    · exact h
  | some setting =>
    obtain ⟨name, value⟩ := setting
    dsimp only
    split_ifs
    · exact h
    · exact allCanonical_configReadHost fs name value h
    · unfold configReadServer
      split_ifs <;> exact h
    · exact h

/-- Every directory that a configuration file gives a host is stored in canonical form. -/
theorem allCanonical_configReadIni (fs : FileSystem) {config : ConfigServer}
    (calls : List IniCall) (h : config.AllCanonical) :
    (configReadIni fs config calls).AllCanonical := by
  unfold configReadIni
  induction calls generalizing config with
  | nil => exact h
  | cons call calls ih => exact ih (allCanonical_configReadIniCb fs call h)

/-- The host that is found is one of those searched, or the default found before. -/
theorem gethostLoop_mem {name : Option Bytes} {defaulthost : Option ConfigHost}
    {hosts : List ConfigHost} {host : ConfigHost}
    (h : gethostLoop name defaulthost hosts = some (some host)) :
    host ∈ hosts ∨ defaulthost = some host := by
  induction hosts generalizing defaulthost with
  | nil => exact Or.inr (Option.some.inj h)
  | cons first rest ih =>
    have hlater (h : host ∈ rest ∨
        (if first.defaultHost then some first else defaulthost) = some host) :
        host ∈ first :: rest ∨ defaulthost = some host := by
      rcases h with hrest | hdefault
      · exact Or.inl (List.mem_cons_of_mem _ hrest)
      · split at hdefault
        · exact Or.inl (List.mem_cons.mpr (Or.inl (Option.some.inj hdefault).symm))
        · exact Or.inr hdefault
    unfold gethostLoop at h
    dsimp only at h
    split at h
    · simp at h
    · split at h
      · obtain rfl := Option.some.inj (Option.some.inj h)
        exact Or.inl List.mem_cons_self
      · exact hlater (ih h)
    · exact hlater (ih h)

/-- The host that is found is a host of the configuration. -/
theorem configServerGethost_mem {config : ConfigServer} {name : Option Bytes} {host : ConfigHost}
    (h : configServerGethost config name = some (some host)) : host ∈ config.hosts := by
  rcases gethostLoop_mem h with hmem | hnone
  · rcases List.mem_append.mp hmem with hfirst | hothers
    · exact List.mem_of_mem_take hfirst
    · exact List.mem_of_mem_take hothers
  · simp at hnone

end Khttp
