import Khttp.HostLookup
import Khttp.HttpServer
import Khttp.Ini

/-!
# What a configuration file leads to

The callback reports an error by `-1`, `ini_parse` takes only zero for one and returns the
number of the first malformed line, and `main` gives up only for a negative number: a file that
can be opened is always accepted. Its hosts are usable where each section names its host and
serves a directory.
-/

namespace Khttp

/-- A text is compared like the one that it equals ignoring case. -/
theorem strcaseeq_congr {key name : Bytes} (h : strcaseeq key name = true) (other : Bytes) :
    strcaseeq other name = strcaseeq other key := by
  simp only [strcaseeq, beq_iff_eq] at h ⊢
  rw [h]

namespace IniCall

/-- The call is about a section for a host. -/
def isHost (call : IniCall) : Bool := strcaseeq (ascii "Host") call.sectionName

/-- The value of `listen` that the call sets. -/
def listen (call : IniCall) : Option Bytes :=
  if strcaseeq (ascii "Server") call.sectionName then
    call.setting.bind fun setting =>
      if strcaseeq (ascii "listen") setting.1 then some setting.2 else none
  else none

/-- The name and the value that the call sets for a host. -/
def hostSetting (call : IniCall) : Option (Bytes × Bytes) :=
  if call.isHost then call.setting else none

end IniCall

/-- The directory exists and can be read. -/
def resolves (fs : FileSystem) (value : Bytes) : Bool :=
  ((fs.realpath value).bind fs.opendir).isSome

/-- The setting gives a host its name. -/
def namesHost (setting : Bytes × Bytes) : Bool := strcaseeq (ascii "name") setting.1

/-- The setting is about the directory of a host. -/
def isServe (setting : Bytes × Bytes) : Bool := strcaseeq (ascii "serve") setting.1

/-- Whether a host has a name, and a directory. -/
def ConfigHost.has (host : ConfigHost) : Bool × Bool :=
  (host.hostname.isSome, host.serveDir.isSome)

/-- What a setting adds to what a host has. -/
def hasAfter (fs : FileSystem) (setting : Bytes × Bytes) (has : Bool × Bool) : Bool × Bool :=
  (has.1 || namesHost setting, has.2 || (isServe setting && resolves fs setting.2))

/-- A setting that neither names the host nor gives it a directory adds nothing. -/
theorem hasAfter_eq_id {fs : FileSystem} {setting : Bytes × Bytes}
    (hname : namesHost setting = false)
    (hserve : isServe setting = false ∨ resolves fs setting.2 = false) :
    hasAfter fs setting = id := by
  funext has
  rcases hserve with hserve | hfails
  · simp [hasAfter, hname, hserve]
  · simp [hasAfter, hname, hfails]

/-- A change of the last host, as to what it has. -/
theorem map_has_changeHost {config : ConfigServer} {f : ConfigHost → ConfigHost}
    {g : Bool × Bool → Bool × Bool} (hf : ∀ host, (f host).has = g host.has) :
    (changeHost config f).hosts.map ConfigHost.has =
      (config.hosts.map ConfigHost.has).modify (config.hosts.length - 1) g := by
  apply List.ext_getElem?
  intro i
  rw [changeHost, List.getElem?_map, List.getElem?_modify, List.getElem?_modify,
    List.getElem?_map]
  split
  · cases config.hosts[i]? with
    | none => rfl
    | some host => exact congrArg some (hf host)
  · simp

/-- A change of the last host that leaves what it has. -/
theorem map_has_changeHost_self {config : ConfigServer} {f : ConfigHost → ConfigHost}
    (hf : ∀ host, (f host).has = host.has) :
    (changeHost config f).hosts.map ConfigHost.has = config.hosts.map ConfigHost.has := by
  rw [map_has_changeHost (g := id) hf, List.modify_id]

/-- Clearing the default flags leaves what the hosts have. -/
theorem map_has_clearDefaults (config : ConfigServer) :
    (clearDefaults config).hosts.map ConfigHost.has = config.hosts.map ConfigHost.has := by
  apply List.ext_getElem?
  intro i
  simp only [clearDefaults, List.getElem?_map, List.getElem?_mapIdx]
  cases config.hosts[i]? with
  | none => rfl
  | some host =>
    simp only [Option.map_some]
    split <;> rfl

/-- What a setting of a host does: a directory that does not resolve is an error. -/
theorem configReadHost_spec (fs : FileSystem) (config : ConfigServer) (name value : Bytes) :
    (configReadHost fs config name value).1.hosts.map ConfigHost.has =
        (config.hosts.map ConfigHost.has).modify (config.hosts.length - 1)
          (hasAfter fs (name, value)) ∧
      (configReadHost fs config name value).1.listenPort = config.listenPort ∧
      (configReadHost fs config name value).2 =
        if isServe (name, value) && !resolves fs value then -1 else 1 := by
  -- a setting that neither names the host nor gives it a directory
  have hother (key : Bytes) (hkey : strcaseeq key name = true)
      (hname : strcaseeq (ascii "name") key = false)
      (hserve : strcaseeq (ascii "serve") key = false) :
      hasAfter fs (name, value) = id ∧ isServe (name, value) = false := by
    have hserve' : isServe (name, value) = false := (strcaseeq_congr hkey _).trans hserve
    have hname' : namesHost (name, value) = false := (strcaseeq_congr hkey _).trans hname
    exact ⟨hasAfter_eq_id hname' (Or.inl hserve'), hserve'⟩
  unfold configReadHost
  split
  · next hkey =>
    have hserve : isServe (name, value) = false :=
      (strcaseeq_congr hkey _).trans (by decide)
    refine ⟨map_has_changeHost fun host => ?_, rfl, by simp [hserve]⟩
    simp [ConfigHost.has, hasAfter, hserve, namesHost, hkey]
  split
  · next hkey =>
    obtain ⟨hhas, hserve⟩ := hother _ hkey (by decide) (by decide)
    rw [hhas, List.modify_id]
    exact ⟨map_has_changeHost_self fun _ => rfl, rfl, by simp [hserve]⟩
  split
  · next hkey =>
    obtain ⟨hhas, hserve⟩ := hother _ hkey (by decide) (by decide)
    rw [hhas, List.modify_id]
    split
    · refine ⟨?_, rfl, by simp [hserve]⟩
      exact (map_has_changeHost_self (f := fun host => { host with defaultHost := true })
        fun _ => rfl).trans (map_has_clearDefaults config)
    · exact ⟨map_has_changeHost_self fun _ => rfl, rfl, by simp [hserve]⟩
    · exact ⟨rfl, rfl, by simp [hserve]⟩
  next hnotName _ _ =>
  split
  · next hkey =>
    have hname : namesHost (name, value) = false := by simpa [namesHost] using hnotName
    have hserve : isServe (name, value) = true := hkey
    split
    · next hreal =>
      have hfails : resolves fs value = false := by simp [resolves, hreal]
      rw [hasAfter_eq_id hname (Or.inr hfails), List.modify_id]
      exact ⟨rfl, rfl, by simp [hserve, hfails]⟩
    · next serveDir hreal =>
      split
      · next hopen =>
        have hfails : resolves fs value = false := by simp [resolves, hreal, hopen]
        rw [hasAfter_eq_id hname (Or.inr hfails), List.modify_id]
        exact ⟨rfl, rfl, by simp [hserve, hfails]⟩
      · next entries hopen =>
        have hsucceeds : resolves fs value = true := by simp [resolves, hreal, hopen]
        refine ⟨map_has_changeHost fun host => ?_, rfl, by simp [hsucceeds]⟩
        simp [ConfigHost.has, hasAfter, hname, hserve, hsucceeds]
  next hnotServe =>
  have hserve : isServe (name, value) = false := by simpa [isServe] using hnotServe
  have hname : namesHost (name, value) = false := by simpa [namesHost] using hnotName
  rw [hasAfter_eq_id hname (Or.inl hserve), List.modify_id]
  split
  · exact ⟨map_has_changeHost_self fun _ => rfl, rfl, by simp [hserve]⟩
  split
  · exact ⟨map_has_changeHost_self fun _ => rfl, rfl, by simp [hserve]⟩
  · exact ⟨rfl, rfl, by simp [hserve]⟩

/-- The call sets a directory that does not resolve. -/
def IniCall.serveFails (fs : FileSystem) (call : IniCall) : Bool :=
  call.hostSetting.any fun setting => isServe setting && !resolves fs setting.2

/-- What a call adds to what the hosts have. -/
def hostsAfter (fs : FileSystem) (call : IniCall) (has : List (Bool × Bool)) : List (Bool × Bool) :=
  if call.isHost then
    match call.setting with
    | none => has ++ [(false, false)]
    | some setting => has.modify (has.length - 1) (hasAfter fs setting)
  else has

/-- The port that `config_read_ini_cb` stores for a text. -/
def storedPort (value : Bytes) : UInt16 := (strtol value % 2 ^ 16).toNat.toUInt16

/-- What a setting of the server does: every port is an error. -/
theorem configReadServer_spec (config : ConfigServer) (name value : Bytes) :
    (configReadServer config name value).1.hosts = config.hosts ∧
      (configReadServer config name value).1.listenPort =
        (if strcaseeq (ascii "listen") name then storedPort value else config.listenPort) ∧
      (configReadServer config name value).2 =
        if strcaseeq (ascii "listen") name then -1 else 1 := by
  have hother (key : Bytes) (hkey : strcaseeq key name = true)
      (hlisten : strcaseeq (ascii "listen") key = false) :
      strcaseeq (ascii "listen") name = false := (strcaseeq_congr hkey _).trans hlisten
  unfold configReadServer
  split
  · next hkey =>
    have hlisten := hother _ hkey (by decide)
    simp [hlisten]
  split
  · next hkey =>
    have hlisten := hother _ hkey (by decide)
    simp [hlisten]
  split
  · exact ⟨rfl, rfl, rfl⟩
  · exact ⟨rfl, rfl, rfl⟩

/-- What a call of the callback does, and when it reports an error. -/
theorem configReadIniCb_spec (fs : FileSystem) (config : ConfigServer) (call : IniCall) :
    (configReadIniCb fs config call).1.hosts.map ConfigHost.has =
        hostsAfter fs call (config.hosts.map ConfigHost.has) ∧
      (configReadIniCb fs config call).1.listenPort =
        call.listen.elim config.listenPort storedPort ∧
      ((configReadIniCb fs config call).2 = -1 ↔
        (call.hostSetting ≠ none ∧ config.hosts = []) ∨ call.serveFails fs = true ∨
          call.listen ≠ none) := by
  obtain ⟨sectionName, setting⟩ := call
  unfold configReadIniCb
  dsimp only
  by_cases hhost : strcaseeq (ascii "Host") sectionName = true
  · have hserver : strcaseeq (ascii "Server") sectionName = false :=
      (strcaseeq_congr hhost _).trans (by decide)
    cases setting with
    | none =>
      simp [hhost, hserver, hostsAfter, IniCall.isHost, IniCall.listen, IniCall.hostSetting,
        IniCall.serveFails, configServerAddhost, configHostNew, ConfigHost.has]
    | some setting =>
      obtain ⟨name, value⟩ := setting
      obtain ⟨hhas, hport, hresult⟩ := configReadHost_spec fs config name value
      by_cases hnil : config.hosts = []
      · simp [hhost, hserver, hnil, hostsAfter, IniCall.isHost, IniCall.listen,
          IniCall.hostSetting]
      · simp [hhost, hserver, hnil, hostsAfter, IniCall.isHost, IniCall.listen,
          IniCall.hostSetting, IniCall.serveFails, hhas, hport, hresult]
  · cases setting with
    | none =>
      simp [hhost, hostsAfter, IniCall.isHost, IniCall.listen, IniCall.hostSetting,
        IniCall.serveFails]
    | some setting =>
      obtain ⟨name, value⟩ := setting
      obtain ⟨hhosts, hport, hresult⟩ := configReadServer_spec config name value
      by_cases hserver : strcaseeq (ascii "Server") sectionName = true
      · by_cases hlisten : strcaseeq (ascii "listen") name = true
        · simp [hhost, hserver, hostsAfter, IniCall.isHost, IniCall.listen, IniCall.hostSetting,
            IniCall.serveFails, hhosts, hport, hresult, hlisten]
        · simp [hhost, hserver, hostsAfter, IniCall.isHost, IniCall.listen, IniCall.hostSetting,
            IniCall.serveFails, hhosts, hport, hresult, hlisten]
      · simp [hhost, hserver, hostsAfter, IniCall.isHost, IniCall.listen, IniCall.hostSetting,
          IniCall.serveFails]

/-- What the calls of the callback return. -/
def callReturns (fs : FileSystem) : ConfigServer → List IniCall → List ℤ
  | _, [] => []
  | config, call :: calls =>
    (configReadIniCb fs config call).2 :: callReturns fs (configReadIniCb fs config call).1 calls

/-- The text is a decimal integer that is a port. -/
def PortText (value : Bytes) (port : ℕ) : Prop :=
  ∃ digits, (value = digits ∨ value = byte '+' :: digits) ∧ digits ≠ [] ∧
    (∀ c ∈ digits, byte '0' ≤ c ∧ c ≤ byte '9') ∧ decimalValue digits = port ∧
    1 ≤ port ∧ port ≤ 65535

/-- No line of the file is malformed. -/
def WellFormed (text : Bytes) : Prop := ∀ line ∈ iniLines text, iniLine line ≠ .malformed

instance (text : Bytes) : Decidable (WellFormed text) :=
  inferInstanceAs (Decidable (∀ line ∈ iniLines text, _))

/-- What `main` goes on with, if it does, after a file of this text was reported as it is. -/
structure ErrorsReported (fs : FileSystem) (machine text : Bytes) (outcome : Option ConfigServer) :
    Prop where
  /-- It goes on only if no line is malformed and no call signals an error. -/
  accepted : outcome ≠ none →
    WellFormed text ∧ -1 ∉ callReturns fs (configServerNew machine) (fileCalls text)
  /-- A directory that does not resolve makes the load fail. -/
  serve : (∃ call ∈ fileCalls text, call.serveFails fs = true) → outcome = none
  /-- A value of `listen` that is no port makes the load fail. -/
  listen : (∃ value ∈ (fileCalls text).filterMap IniCall.listen, ∀ port, ¬PortText value port) →
    outcome = none
  /-- A file without any of these errors is loaded. -/
  loads : WellFormed text → (∀ call ∈ fileCalls text, call.serveFails fs = false) →
    (∀ value ∈ (fileCalls text).filterMap IniCall.listen, ∃ port, PortText value port) →
    outcome ≠ none
  /-- The last port is stored unchanged. -/
  stored : ∀ config value port, outcome = some config →
    ((fileCalls text).filterMap IniCall.listen).getLast? = some value → PortText value port →
    config.listenPort.toNat = port

/-- A call keeps the hosts, and a section for a host adds one. -/
theorem hosts_ne_nil_configReadIniCb {fs : FileSystem} {config : ConfigServer} {call : IniCall}
    (h : config.hosts ≠ [] ∨ (call.isHost = true ∧ call.setting = none)) :
    (configReadIniCb fs config call).1.hosts ≠ [] := by
  intro hnil
  have hhas := (configReadIniCb_spec fs config call).1
  rw [hnil, List.map_nil] at hhas
  have hlength := congrArg List.length hhas
  unfold hostsAfter at hlength
  rcases h with hne | ⟨hhost, hnone⟩
  · have hpositive : 0 < config.hosts.length := List.length_pos_iff.mpr hne
    split at hlength
    · split at hlength
      · simp at hlength
      · simp only [List.length_nil, List.length_modify, List.length_map] at hlength
        omega
    · simp at hlength
      omega
  · simp [hhost, hnone] at hlength

/-- The calls that lines lead to signal an error for every directory that does not resolve, and
for every port. -/
theorem mem_callReturns_iff {fs : FileSystem} {lines : List Bytes} {sectionName : Bytes}
    {config : ConfigServer} (hhosts : strcaseeq (ascii "Host") sectionName = true →
      config.hosts ≠ []) :
    -1 ∈ callReturns fs config (iniCalls sectionName lines) ↔
      ∃ call ∈ iniCalls sectionName lines, call.serveFails fs = true ∨ call.listen ≠ none := by
  induction lines generalizing sectionName config with
  | nil => simp [iniCalls, callReturns]
  | cons line lines ih =>
    have hstep {call : IniCall} {name : Bytes}
        (hsafe : call.hostSetting ≠ none → config.hosts ≠ [])
        (hnext : strcaseeq (ascii "Host") name = true →
          config.hosts ≠ [] ∨ (call.isHost = true ∧ call.setting = none)) :
        -1 ∈ callReturns fs config (call :: iniCalls name lines) ↔
          ∃ call' ∈ call :: iniCalls name lines,
            call'.serveFails fs = true ∨ call'.listen ≠ none := by
      have hreturn := (configReadIniCb_spec fs config call).2.2
      have hempty : ¬(call.hostSetting ≠ none ∧ config.hosts = []) := fun h => hsafe h.1 h.2
      rw [callReturns, List.mem_cons, eq_comm, hreturn, ih fun hname =>
        hosts_ne_nil_configReadIniCb (hnext hname), List.exists_mem_cons_iff]
      simp only [hempty, false_or]
    rw [iniCalls]
    cases iniLine line with
    | ignored | malformed => exact ih hhosts
    | newSection name =>
      refine hstep (by simp [IniCall.hostSetting]) fun hname => Or.inr ⟨hname, rfl⟩
    | setting name value =>
      refine hstep ?_ fun hname => Or.inl (hhosts hname)
      intro hsetting
      apply hhosts
      by_contra hother
      simp [IniCall.hostSetting, IniCall.isHost, hother] at hsetting

/-- The port that is stored in the end is that of the last setting. -/
theorem listenPort_configReadIni (fs : FileSystem) (config : ConfigServer) (calls : List IniCall) :
    (configReadIni fs config calls).listenPort =
      ((calls.filterMap IniCall.listen).getLast?).elim config.listenPort storedPort := by
  induction calls generalizing config with
  | nil => rfl
  | cons call calls ih =>
    have hport := (configReadIniCb_spec fs config call).2.1
    rw [configReadIni, List.foldl_cons]
    change (configReadIni fs (configReadIniCb fs config call).1 calls).listenPort = _
    rw [ih, hport]
    cases hlisten : call.listen with
    | none => rw [List.filterMap_cons_none hlisten]; rfl
    | some value =>
      rw [List.filterMap_cons_some hlisten, List.getLast?_cons]
      cases (calls.filterMap IniCall.listen).getLast? <;> rfl

/-- `strtol` reads a decimal number. -/
theorem strtol_digits {value digits : Bytes} (hvalue : value = digits ∨ value = byte '+' :: digits)
    (hne : digits ≠ []) (hall : ∀ c ∈ digits, byte '0' ≤ c ∧ c ≤ byte '9') :
    strtol value = (min (decimalValue digits) (2 ^ 63 - 1) : ℕ) := by
  have hbounds (c : UInt8) (hc : c ∈ digits) : 48 ≤ c.toNat ∧ c.toNat ≤ 57 := by
    obtain ⟨hlow, hhigh⟩ := hall c hc
    rw [UInt8.le_iff_toNat_le] at hlow hhigh
    exact ⟨hlow, hhigh⟩
  have hother {c d : UInt8} (hc : c ∈ digits) (hd : d.toNat < 48) : c ≠ d := by
    rintro rfl
    have hlow := (hbounds c hc).1
    omega
  have htake : digits.takeWhile (fun c => decide (byte '0' ≤ c) && decide (c ≤ byte '9')) =
      digits := by
    rw [List.takeWhile_eq_self_iff]
    intro c hc
    simp [hall c hc]
  have hplain : (0 : UInt8) ∉ value := by
    rcases hvalue with rfl | rfl
    · intro hmem
      exact hother hmem (by decide) rfl
    · intro hmem
      rcases List.mem_cons.mp hmem with heq | hmem
      · exact absurd heq (by decide)
      · exact hother hmem (by decide) rfl
  obtain ⟨c, rest, hcons⟩ := List.exists_cons_of_ne_nil hne
  have hc : c ∈ digits := by simp [hcons]
  have hspace : isspace c = false := by
    have hlow := (hbounds c hc).1
    have hnot : ¬c ≤ 13 := by
      rw [UInt8.le_iff_toNat_le]
      change ¬c.toNat ≤ 13
      omega
    simp [isspace, hnot, hother hc (show (32 : UInt8).toNat < 48 by decide)]
  have hskip : value.dropWhile isspace = value := by
    rcases hvalue with rfl | rfl
    · rw [hcons, List.dropWhile_cons_of_neg (by simp [hspace])]
    · rw [List.dropWhile_cons_of_neg (by decide)]
  unfold strtol
  rw [cstr_of_zero_notMem hplain, hskip]
  rcases hvalue with rfl | rfl
  · have hminus : c ≠ byte '-' := hother hc (by decide)
    have hplus : c ≠ byte '+' := hother hc (by decide)
    rw [hcons] at htake ⊢
    simp [hminus, hplus, htake, decimalValue]
  · have hplus : byte '+' ≠ byte '-' := by decide
    simp [hplus, htake, decimalValue]

/-- A port is stored unchanged. -/
theorem storedPort_of_portText {value : Bytes} {port : ℕ} (h : PortText value port) :
    (storedPort value).toNat = port := by
  obtain ⟨digits, hvalue, hne, hall, rfl, hlow, hhigh⟩ := h
  have hsmall : min (decimalValue digits) (2 ^ 63 - 1) = decimalValue digits := by omega
  have hmod : ((decimalValue digits : ℤ) % 2 ^ 16).toNat = decimalValue digits := by omega
  rw [storedPort, strtol_digits hvalue hne hall, hsmall, hmod]
  simp
  omega

/-- Errors of a file are reported exactly where its lines can be counted, no line is malformed,
no directory fails to resolve and no port is set. -/
theorem errorsReported_iff {fs : FileSystem} {machine text : Bytes} :
    (∃ outcome, mainConfig fs machine (some text) = some outcome ∧
      ErrorsReported fs machine text outcome) ↔
      (iniLines text).length < 2 ^ 31 ∧ WellFormed text ∧
        ∀ call ∈ fileCalls text, call.serveFails fs = false ∧ call.listen = none := by
  have hreturns : -1 ∈ callReturns fs (configServerNew machine) (fileCalls text) ↔
      ∃ call ∈ fileCalls text, call.serveFails fs = true ∨ call.listen ≠ none :=
    mem_callReturns_iff fun hhost => by simp [strcaseeq, cstr, ascii] at hhost
  rw [mainConfig_eq]
  constructor
  · rintro ⟨outcome, hmain, hreported⟩
    obtain ⟨hcount, heq⟩ := Option.ite_none_right_eq_some.mp hmain
    obtain rfl := Option.some.inj heq
    obtain ⟨hformed, hnone⟩ := hreported.accepted (by simp)
    refine ⟨hcount, hformed, fun call hcall => ?_⟩
    rw [hreturns] at hnone
    by_contra hbad
    apply hnone
    refine ⟨call, hcall, ?_⟩
    by_contra hgood
    apply hbad
    simpa using hgood
  · rintro ⟨hcount, hformed, hcalls⟩
    rw [if_pos hcount]
    refine ⟨_, rfl, ?_, ?_, ?_, ?_, ?_⟩
    · intro _
      refine ⟨hformed, fun hmem => ?_⟩
      obtain ⟨call, hcall, hserve | hlisten⟩ := hreturns.mp hmem
      · simp [(hcalls call hcall).1] at hserve
      · exact hlisten (hcalls call hcall).2
    · rintro ⟨call, hcall, hserve⟩
      simp [(hcalls call hcall).1] at hserve
    · rintro ⟨value, hvalue, _⟩
      obtain ⟨call, hcall, hlisten⟩ := List.mem_filterMap.mp hvalue
      simp [(hcalls call hcall).2] at hlisten
    · simp
    · rintro config value port hconfig hlast hport
      obtain rfl := Option.some.inj hconfig
      rw [listenPort_configReadIni, hlast]
      exact storedPort_of_portText hport

/-- A file with a host that serves the root. -/
def plainFile : Bytes := ascii "# khttp\n[Host]\nname = a ; the only one\nserve = /\n"

/-- A file without errors is loaded. -/
theorem errorsReported_plain : ∃ outcome,
    mainConfig rootFileSystem [] (some plainFile) = some outcome ∧
      ErrorsReported rootFileSystem [] plainFile outcome :=
  errorsReported_iff.mpr ⟨by decide, by decide, by decide⟩

/-- A file with a number that is no port. -/
def largePortFile : Bytes := ascii "[Server]\nlisten = 70000\n[Host]\nname = a\nserve = /\n"

/-- The number is cut to a port. -/
theorem not_errorsReported_largePort : ¬∃ outcome,
    mainConfig rootFileSystem [] (some largePortFile) = some outcome ∧
      ErrorsReported rootFileSystem [] largePortFile outcome := by
  rintro ⟨outcome, hmain, hreported⟩
  rw [mainConfig_eq, if_pos (by decide)] at hmain
  obtain rfl := Option.some.inj hmain
  have hvalue : ascii "70000" ∈ (fileCalls largePortFile).filterMap IniCall.listen := by decide
  have hnone := hreported.listen ⟨_, hvalue, ?_⟩
  · simp at hnone
  · rintro port ⟨digits, heq, _, _, hport, _, hhigh⟩
    have hlarge : decimalValue digits = 70000 := by
      rcases heq with rfl | heq
      · decide
      · have hhead : some (byte '7') = some (byte '+') := congrArg List.head? heq
        exact absurd hhead (by decide)
    omega

/-- The settings of a host that come before the next host. -/
def sectionSettings : List IniCall → List (Bytes × Bytes)
  | [] => []
  | call :: calls =>
    if call.isHost then
      match call.setting with
      | none => []
      | some setting => setting :: sectionSettings calls
    else sectionSettings calls

/-- What a host has that had something before these settings. -/
def hasWith (fs : FileSystem) (has : Bool × Bool) (settings : List (Bytes × Bytes)) : Bool × Bool :=
  settings.foldl (fun has setting => hasAfter fs setting has) has

/-- Every section for a host sets a name, and a directory that resolves, before the next one
starts. -/
def HostsSet (fs : FileSystem) : List IniCall → Prop
  | [] => True
  | call :: calls =>
    (call.isHost = true → call.setting = none →
      (∃ setting ∈ sectionSettings calls, namesHost setting = true) ∧
        ∃ setting ∈ sectionSettings calls, isServe setting = true ∧ resolves fs setting.2 = true) ∧
      HostsSet fs calls

/-- Whether every section for a host is complete can be computed. -/
instance decidableHostsSet (fs : FileSystem) : ∀ calls, Decidable (HostsSet fs calls)
  | [] => isTrue trivial
  | call :: calls =>
    have := decidableHostsSet fs calls
    inferInstanceAs (Decidable ((call.isHost = true → call.setting = none →
      (∃ setting ∈ sectionSettings calls, namesHost setting = true) ∧
        ∃ setting ∈ sectionSettings calls, isServe setting = true ∧
          resolves fs setting.2 = true) ∧ HostsSet fs calls))

/-- A host has a name exactly where it had one or a setting gives one, and likewise for its
directory. -/
theorem hasWith_eq_true_iff (fs : FileSystem) (has : Bool × Bool)
    (settings : List (Bytes × Bytes)) :
    hasWith fs has settings = (true, true) ↔
      (has.1 = true ∨ ∃ setting ∈ settings, namesHost setting = true) ∧
        (has.2 = true ∨ ∃ setting ∈ settings, isServe setting = true ∧
          resolves fs setting.2 = true) := by
  induction settings generalizing has with
  | nil => simp [hasWith, Prod.ext_iff]
  | cons setting settings ih =>
    rw [hasWith, List.foldl_cons]
    change hasWith fs (hasAfter fs setting has) settings = _ ↔ _
    rw [ih]
    simp only [hasAfter, Bool.or_eq_true, Bool.and_eq_true, List.exists_mem_cons_iff, or_assoc]

/-- The last element of a list is changed. -/
theorem modify_last {α : Type*} (l : List α) (a : α) (f : α → α) :
    (l ++ [a]).modify ((l ++ [a]).length - 1) f = l ++ [f a] := by
  rw [List.length_append, List.length_singleton, Nat.add_sub_cancel]
  induction l with
  | nil => rfl
  | cons b l ih =>
    rw [List.cons_append, List.length_cons, List.modify_succ_cons, ih]
    rfl

/-- **Run lemma.** What the hosts have after some calls: the last one gets the settings before
the next host, and every new one those of its own section. -/
theorem foldl_hostsAfter_iff (fs : FileSystem) (calls : List IniCall) :
    (∀ front last, (∀ has ∈ calls.foldl (fun has call => hostsAfter fs call has) (front ++ [last]),
        has = (true, true)) ↔
      (∀ has ∈ front, has = (true, true)) ∧
        hasWith fs last (sectionSettings calls) = (true, true) ∧ HostsSet fs calls) ∧
    ((∀ has ∈ calls.foldl (fun has call => hostsAfter fs call has) [], has = (true, true)) ↔
      HostsSet fs calls) := by
  induction calls with
  | nil => simp [sectionSettings, hasWith, HostsSet, or_imp, forall_and]
  | cons call calls ih =>
    obtain ⟨ihLast, ihNone⟩ := ih
    simp only [List.foldl_cons, sectionSettings, HostsSet]
    by_cases hhost : call.isHost = true
    · simp only [hhost, if_true, true_implies]
      cases hsetting : call.setting with
      | none =>
        have hafter (has : List (Bool × Bool)) :
            hostsAfter fs call has = has ++ [(false, false)] := by
          simp [hostsAfter, hhost, hsetting]
        -- a new host, which the settings before the next one complete
        have hnew : hasWith fs (false, false) (sectionSettings calls) = (true, true) ↔
            (∃ setting ∈ sectionSettings calls, namesHost setting = true) ∧
              ∃ setting ∈ sectionSettings calls, isServe setting = true ∧
                resolves fs setting.2 = true := by
          simp [hasWith_eq_true_iff]
        simp only [true_implies, ← hnew]
        constructor
        · intro front last
          rw [hafter, ihLast]
          simp only [List.forall_mem_append, List.forall_mem_singleton, hasWith, List.foldl_nil]
          tauto
        · rw [hafter, ihLast]
          simp
      | some setting =>
        have hafter (has : List (Bool × Bool)) :
            hostsAfter fs call has = has.modify (has.length - 1) (hasAfter fs setting) := by
          simp [hostsAfter, hhost, hsetting]
        simp only [reduceCtorEq, false_implies, true_and]
        constructor
        · intro front last
          rw [hafter, modify_last, ihLast]
          rfl
        · rw [hafter, List.modify_nil]
          exact ihNone
    · have hafter (has : List (Bool × Bool)) : hostsAfter fs call has = has := by
        simp [hostsAfter, hhost]
      simp only [hhost, if_false, false_implies, true_and, Bool.false_eq_true, hafter]
      exact ⟨ihLast, ihNone⟩

/-- What the hosts of a file have. -/
theorem map_has_configReadIni (fs : FileSystem) (config : ConfigServer) (calls : List IniCall) :
    (configReadIni fs config calls).hosts.map ConfigHost.has =
      calls.foldl (fun has call => hostsAfter fs call has) (config.hosts.map ConfigHost.has) := by
  induction calls generalizing config with
  | nil => rfl
  | cons call calls ih =>
    rw [List.foldl_cons, ← (configReadIniCb_spec fs config call).1]
    exact ih _

/-- Every host has a name and a directory, so that looking a host up compares against no null
name and every request is answered out of a directory. -/
structure HostsUsable (config : ConfigServer) : Prop where
  /-- The hosts. -/
  hosts : ∀ host ∈ config.hosts, host.hostname ≠ none ∧ host.serveDir ≠ none
  /-- The search for a host. -/
  gethost : ∀ name, configServerGethost config name ≠ none
  /-- The host of a request. -/
  serve : ∀ request line host, requestHost config request line = some (.ok host) →
    host.serveDir ≠ none

/-- The hosts of a file that is loaded are usable exactly where each section for a host sets a
name and a directory that resolves. -/
theorem hostsUsable_iff {fs : FileSystem} {machine text : Bytes} {config : ConfigServer}
    (hload : mainConfig fs machine (some text) = some (some config)) :
    HostsUsable config ↔ HostsSet fs (fileCalls text) := by
  rw [mainConfig_eq] at hload
  obtain ⟨_, heq⟩ := Option.ite_none_right_eq_some.mp hload
  have hconfig : configReadIni fs (configServerNew machine) (fileCalls text) = config :=
    Option.some.inj (Option.some.inj heq)
  have hhas : config.hosts.map ConfigHost.has =
      (fileCalls text).foldl (fun has call => hostsAfter fs call has) [] := by
    rw [← hconfig]
    exact map_has_configReadIni fs (configServerNew machine) (fileCalls text)
  have hall : (∀ host ∈ config.hosts, host.hostname ≠ none ∧ host.serveDir ≠ none) ↔
      HostsSet fs (fileCalls text) := by
    rw [← (foldl_hostsAfter_iff fs (fileCalls text)).2, ← hhas, List.forall_mem_map]
    simp [ConfigHost.has, Option.isSome_iff_ne_none]
  rw [← hall]
  constructor
  · exact HostsUsable.hosts
  · intro hhosts
    refine ⟨hhosts, fun name => ?_, fun request line host hhost => ?_⟩
    · have hnamed (host : ConfigHost) (hmem : host ∈ foreachHost config.hosts) :
          host.hostname ≠ none := by
        rcases List.mem_append.mp hmem with hfirst | hothers
        · exact (hhosts host (List.mem_of_mem_take hfirst)).1
        · exact (hhosts host (List.mem_of_mem_take hothers)).1
      rw [configServerGethost, gethostLoop_eq hnamed]
      simp
    · obtain ⟨result, _, hresult⟩ := Option.bind_eq_some_iff.mp hhost
      cases result with
      | error refusal => simp at hresult
      | ok name =>
        obtain ⟨found, hfound, hok⟩ := Option.map_eq_some_iff.mp hresult
        cases found with
        | none => simp at hok
        | some found =>
          obtain rfl := Except.ok.inj hok
          exact (hhosts found (configServerGethost_mem hfound)).2

/-- The host of a file that sets its name and its directory is usable. -/
theorem hostsUsable_plain : ∃ config,
    mainConfig rootFileSystem [] (some plainFile) = some (some config) ∧ HostsUsable config := by
  have hload : mainConfig rootFileSystem [] (some plainFile) =
      some (some (configReadIni rootFileSystem (configServerNew []) (fileCalls plainFile))) := by
    rw [mainConfig_eq, if_pos (by decide)]
  exact ⟨_, hload, (hostsUsable_iff hload).mpr (by decide)⟩

/-- A file with a host that sets neither its name nor its directory. -/
def namelessFile : Bytes := ascii "[Host]\ndefault = yes\n"

/-- The host without a name passes the assertions of `server_status_new`. -/
theorem not_hostsUsable_nameless : ∃ config,
    mainConfig rootFileSystem [] (some namelessFile) = some (some config) ∧ config.hosts ≠ [] ∧
      0 < config.listenPort ∧ ¬HostsUsable config := by
  have hload : mainConfig rootFileSystem [] (some namelessFile) =
      some (some (configReadIni rootFileSystem (configServerNew []) (fileCalls namelessFile))) := by
    rw [mainConfig_eq, if_pos (by decide)]
  refine ⟨_, hload, by decide, by decide, fun husable => ?_⟩
  have hname : configServerGethost (configReadIni rootFileSystem (configServerNew [])
      (fileCalls namelessFile)) (some (ascii "a")) = none := by
    decide
  exact husable.gethost _ hname

end Khttp
