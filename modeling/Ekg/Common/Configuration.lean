import Ekg.Common.ProgramOptions

/-!
# The configuration

`ProgramOptions` declares twenty options, each with a type and most of them with a default, and has
`boost::program_options` look for them in the command line, in the environment and, if these two ask
for it, in a file.  The getters then put the values into the structures that the services are
constructed from.

The library is not ours, and stands here as a parameter: how it reads a command line is its own
affair, and `Boost.Documented` says what its documentation promises of `store`.  A value that was
given stays, a default gives way, and what comes out has the type of the declaration.

What a getter returns is then known (`configuration_of_parse`).  Each field is what the first source
that has the option says, in the order in which they are stored; the file is among them only if the
other two say so, so that it cannot call itself off; and no getter asks for a type other than the
declared one, so that only the parameters of the drivers can make one throw.
-/

set_option autoImplicit false

namespace Ekg.ProgramOptions

/-! ## The options -/

/-- The types that options are declared with. -/
inductive OptionType
  /-- An option without a value. -/
  | flag
  | bool
  | string
  | int
  | unsigned
  | strings
  deriving DecidableEq, Repr

/-- The values of a type. -/
def OptionType.Carrier : OptionType → Type
  | flag => Unit
  | bool => Bool
  | string => String
  | int => ℤ
  | unsigned => ℕ
  | strings => List String

/-- `boost::any`, as far as the options make use of it. -/
structure OptionValue where
  type : OptionType
  value : type.Carrier

/-- `as`. -/
def OptionValue.as (type : OptionType) (v : OptionValue) : Option type.Carrier :=
  if h : v.type = type then some (h ▸ v.value) else none

theorem OptionValue.as_type (v : OptionValue) : v.as v.type = some v.value := dif_pos rfl

/-- An entry of `options`. -/
structure OptionDescription where
  name : String
  type : OptionType
  default : Option type.Carrier := none

def help : String := "help"
def confFile : String := "conf-file"
def confFileName : String := "conf-file-name"
def logLevel : String := "log-level"
def logOnConsole : String := "log-on-console"
def logOnFile : String := "log-on-file"
def logFileName : String := "log-file-name"
def logFileMaxSize : String := "log-file-max-size"
def logOnSyslog : String := "log-on-syslog"
def syslogServer : String := "syslog-server"
def syslogPort : String := "syslog-port"
def cmdInputTopic : String := "cmd-input-topic"
def cmdMaxFecthCmd : String := "cmd-max-fecth-element"
def cmdMaxFetchTimeOut : String := "cmd-max-fecth-time-out"
def pubServerAddress : String := "pub-server-address"
def pubImplKv : String := "pub-impl-kv"
def subServerAddress : String := "sub-server-address"
def subGroupId : String := "sub-group-id"
def subImplKv : String := "sub-impl-kv"
def storagePath : String := "storage-path"

/-- The options that the constructor declares; `actualPath` is where the storage is by default. -/
def options (actualPath : String) : List OptionDescription :=
  [⟨help, .flag, none⟩,
    ⟨confFile, .bool, some false⟩,
    ⟨confFileName, .string, some ""⟩,
    ⟨logLevel, .string, some "info"⟩,
    ⟨logOnConsole, .bool, some false⟩,
    ⟨logOnFile, .bool, some false⟩,
    ⟨logFileName, .string, none⟩,
    ⟨logFileMaxSize, .int, some (1 : ℤ)⟩,
    ⟨logOnSyslog, .bool, some false⟩,
    ⟨syslogServer, .string, none⟩,
    ⟨syslogPort, .int, some (514 : ℤ)⟩,
    ⟨cmdInputTopic, .string, none⟩,
    ⟨cmdMaxFecthCmd, .unsigned, some (10 : ℕ)⟩,
    ⟨cmdMaxFetchTimeOut, .unsigned, some (250 : ℕ)⟩,
    ⟨pubServerAddress, .string, none⟩,
    ⟨pubImplKv, .strings, none⟩,
    ⟨subServerAddress, .string, none⟩,
    ⟨subGroupId, .string, some "ekg-default-group"⟩,
    ⟨subImplKv, .strings, none⟩,
    ⟨storagePath, .string, some actualPath⟩]

/-- What may be thrown. -/
inductive OptionError
  /-- `po::too_many_positional_options_error`. -/
  | tooManyPositionalOptions (what : String)
  /-- `po::error_with_option_name`. -/
  | withOptionName (what : String)
  /-- Any other error of the library. -/
  | other (what : String)
  | badAnyCast
  | runtimeError (what : String)
  deriving DecidableEq, Repr

/-- `po::variable_value`. -/
structure VariableValue where
  value : OptionValue
  defaulted : Bool

/-- `po::variables_map`. -/
abbrev VariablesMap := String → Option VariableValue

/-! ## The library -/

/-- What `parse` calls of `boost::program_options`. -/
structure Boost where
  /-- `po::parsed_options`. -/
  ParsedOptions : Type
  /-- `po::command_line_parser(argc, argv).options(options).allow_unregistered().run()`. -/
  commandLineParser : List String → Except OptionError ParsedOptions
  /-- `po::parse_environment(options, "EPICS_ekg_")`. -/
  parseEnvironment : List (String × String) → Except OptionError ParsedOptions
  /-- `po::parse_config_file`, for the contents of the file. -/
  parseConfigFile : String → Except OptionError ParsedOptions
  /-- The value that parsed options have for a declared option. -/
  given : ParsedOptions → String → Option OptionValue
  /-- `po::store`. -/
  store : ParsedOptions → VariablesMap → Except OptionError VariablesMap

/-- The entry that a default makes. -/
def OptionDescription.entry (d : OptionDescription) : Option VariableValue :=
  d.default.map fun x ↦ ⟨⟨d.type, x⟩, true⟩

/-- There is no value for the option, or only its default. -/
def Open (entry : Option VariableValue) : Prop := ∀ v, entry = some v → v.defaulted = true

/-- What the documentation of the library says of options that are declared as `options`. -/
structure Boost.Documented (po : Boost) (options : List OptionDescription) : Prop where
  /-- `store` does not change a value that is not a default. -/
  kept : ∀ parsed vm vm' name v, po.store parsed vm = .ok vm' → vm name = some v →
    v.defaulted = false → vm' name = some v
  /-- It takes a value that the source gives. -/
  taken : ∀ parsed vm vm' name x, po.store parsed vm = .ok vm' → Open (vm name) →
    po.given parsed name = some x → vm' name = some ⟨x, false⟩
  /-- It supplies the default of an option that has no value. -/
  supplied : ∀ parsed vm vm' d, po.store parsed vm = .ok vm' → d ∈ options → Open (vm d.name) →
    po.given parsed d.name = none → vm' d.name = (vm d.name).or d.entry
  /-- A source gives values of the declared type. -/
  typed : ∀ parsed d x, d ∈ options → po.given parsed d.name = some x → x.type = d.type

/-! ## The getters -/

section Getters

variable (vm : VariablesMap)

/-- `ProgramOptions::optionConfigure`, and so is `hasOption`. -/
def optionConfigure (name : String) : Bool := (vm name).isSome

/-- `ProgramOptions::getOption`. -/
def getOption (type : OptionType) (name : String) : Except OptionError type.Carrier :=
  match (vm name).bind fun v ↦ v.value.as type with
  | some x => .ok x
  | none => .error .badAnyCast

/-- `GET_OPTION`. -/
def getOptionOr (type : OptionType) (name : String) (fallback : type.Carrier) :
    Except OptionError type.Carrier :=
  if optionConfigure vm name then getOption vm type name else .ok fallback

end Getters

structure LogConfiguration where
  logLevel : String
  logOnConsole : Bool
  logOnFile : Bool
  logFileName : String
  logFileMaxSizeMb : ℤ
  logOnSyslog : Bool
  logSyslogSrv : String
  logSyslogSrvPort : ℤ
  deriving DecidableEq, Repr

structure CMDControllerConfig where
  topicIn : String
  maxMessageToFetch : ℕ
  fetchTimeOut : ℕ
  deriving DecidableEq, Repr

structure PublisherConfiguration where
  serverAddress : String
  customImplParameter : MapStrKV

structure SubscriberConfiguration where
  serverAddress : String
  groupId : String
  customImplParameter : MapStrKV

/-- `ProgramOptions::getloggerConfiguration`. -/
def getloggerConfiguration (vm : VariablesMap) : Except OptionError LogConfiguration := do
  let logLevel ← getOption vm .string logLevel
  let logOnConsole ← getOptionOr vm .bool logOnConsole false
  let logOnFile ← getOptionOr vm .bool logOnFile false
  let logFileName ← getOptionOr vm .string logFileName ""
  let logFileMaxSizeMb ← getOptionOr vm .int logFileMaxSize (1 : ℤ)
  let logOnSyslog ← getOptionOr vm .bool logOnSyslog false
  let logSyslogSrv ← getOptionOr vm .string syslogServer ""
  let logSyslogSrvPort ← getOptionOr vm .int syslogPort (514 : ℤ)
  return ⟨logLevel, logOnConsole, logOnFile, logFileName, logFileMaxSizeMb, logOnSyslog,
    logSyslogSrv, logSyslogSrvPort⟩

/-- `ProgramOptions::getCMDControllerConfiguration`. -/
def getCMDControllerConfiguration (vm : VariablesMap) : Except OptionError CMDControllerConfig := do
  let topicIn ← getOptionOr vm .string cmdInputTopic ""
  let maxMessageToFetch ← getOptionOr vm .unsigned cmdMaxFecthCmd (250 : ℕ)
  let fetchTimeOut ← getOptionOr vm .unsigned cmdMaxFetchTimeOut (10 : ℕ)
  return ⟨topicIn, maxMessageToFetch, fetchTimeOut⟩

/-- `ProgramOptions::getPublisherConfiguration`. -/
def getPublisherConfiguration (vm : VariablesMap) :
    Except OptionError PublisherConfiguration := do
  let serverAddress ← getOptionOr vm .string pubServerAddress ""
  let kvVec ← getOptionOr vm .strings pubImplKv ([] : List String)
  let customImplParameter ← (parseKVCustomParam kvVec).mapError .runtimeError
  return ⟨serverAddress, customImplParameter⟩

/-- `ProgramOptions::getSubscriberConfiguration`. -/
def getSubscriberConfiguration (vm : VariablesMap) :
    Except OptionError SubscriberConfiguration := do
  let serverAddress ← getOptionOr vm .string subServerAddress ""
  let groupId ← getOptionOr vm .string subGroupId ""
  let kvVec ← getOptionOr vm .strings subImplKv ([] : List String)
  let customImplParameter ← (parseKVCustomParam kvVec).mapError .runtimeError
  return ⟨serverAddress, groupId, customImplParameter⟩

/-- `ProgramOptions::getStoragePath`. -/
def getStoragePath (vm : VariablesMap) : Except OptionError String :=
  getOption vm .string storagePath

/-! ## `parse` -/

/-- The end of `parse`, which reads the file if it has to.  `openFile` has the contents of the files
that can be opened. -/
def storeFile (po : Boost) (openFile : String → Option String) (vm : VariablesMap) :
    Except OptionError VariablesMap := do
  let fromFile : Bool ← getOption vm .bool confFile
  if fromFile then
    let name : String ← getOption vm .string confFileName
    if name.isEmpty then .error (.runtimeError "configuration file has nott been specifyed")
    else
      match openFile name with
      | none => .error (.runtimeError "Error opening configuration file")
      | some contents => do
        let parsed ← po.parseConfigFile contents
        po.store parsed vm
  else return vm

/-- What the handlers of `parse` make of an exception. -/
def rethrow : OptionError → OptionError
  | .tooManyPositionalOptions what | .withOptionName what => .runtimeError what
  | e => e

/-- `ProgramOptions::parse`.  `notify` has nothing to do, for no option has a notifier or is
required. -/
def parse (po : Boost) (argv : List String) (environment : List (String × String))
    (openFile : String → Option String) : Except OptionError VariablesMap :=
  Except.mapError rethrow do
    let line ← po.commandLineParser argv
    let vm ← po.store line fun _ ↦ none
    let inherited ← po.parseEnvironment environment
    let vm ← po.store inherited vm
    storeFile po openFile vm

/-! ## What has been stored -/

/-- Where values come from, by the names of the options. -/
abbrev Source := String → Option OptionValue

/-- What the first source that has the option says, and a default if none has it. -/
def valueOf? (sources : List Source) (type : OptionType) (name : String) (default : type.Carrier) :
    type.Carrier :=
  ((sources.findSome? fun source ↦ source name).bind (OptionValue.as type)).getD default

/-- **What the map has after some sources were stored.** -/
structure Stored (options : List OptionDescription) (sources : List Source) (vm : VariablesMap) :
    Prop where
  entry : ∀ d ∈ options, vm d.name =
    match sources.findSome? fun source ↦ source d.name with
    | some x => some ⟨x, false⟩
    | none => d.entry
  typed : ∀ source ∈ sources, ∀ d ∈ options, ∀ x, source d.name = some x → x.type = d.type

variable {po : Boost} {table : List OptionDescription} {sources : List Source}
  {vm vm' : VariablesMap} {parsed : po.ParsedOptions} {d : OptionDescription} {type : OptionType}
  {name actualPath : String} {default : Option type.Carrier}

theorem open_entry (d : OptionDescription) : Open d.entry := by
  intro v hv
  obtain ⟨x, -, rfl⟩ := Option.map_eq_some_iff.mp hv
  rfl

/-- The first source. -/
theorem stored_first (hpo : po.Documented table)
    (h : po.store parsed (fun _ ↦ none) = .ok vm) : Stored table [po.given parsed] vm where
  entry d hd := by
    have hopen : Open none := nofun
    rw [List.findSome?_cons]
    cases hgiven : po.given parsed d.name with
    | some x => exact hpo.taken _ _ _ _ x h hopen hgiven
    | none => exact hpo.supplied _ _ _ d h hd hopen hgiven
  typed source hsource d hd x hx := by
    rw [List.mem_singleton.mp hsource] at hx
    exact hpo.typed parsed d x hd hx

/-- One source more. -/
theorem Stored.next (hpo : po.Documented table) (hs : Stored table sources vm)
    (h : po.store parsed vm = .ok vm') : Stored table (sources ++ [po.given parsed]) vm' where
  entry d hd := by
    have hentry := hs.entry d hd
    rw [List.findSome?_append]
    cases hfirst : sources.findSome? fun source ↦ source d.name with
    | some x =>
      rw [hfirst] at hentry
      exact hpo.kept _ _ _ _ _ h hentry rfl
    | none =>
      rw [hfirst] at hentry
      have hopen : Open (vm d.name) := by rw [hentry]; exact open_entry d
      rw [Option.none_or, List.findSome?_cons]
      cases hgiven : po.given parsed d.name with
      | some x => exact hpo.taken _ _ _ _ x h hopen hgiven
      | none =>
        have heq := hpo.supplied _ _ _ d h hd hopen hgiven
        rwa [hentry, Option.or_self] at heq
  typed source hsource := by
    rcases List.mem_append.mp hsource with hmem | hmem
    · exact hs.typed source hmem
    · rw [List.mem_singleton.mp hmem]
      exact fun d hd x hx ↦ hpo.typed parsed d x hd hx

/-- What a source says is of the declared type. -/
theorem Stored.type_eq (hs : Stored table sources vm) (hd : d ∈ table) {x : OptionValue}
    (hx : (sources.findSome? fun source ↦ source d.name) = some x) : x.type = d.type := by
  obtain ⟨source, hsource, hgiven⟩ := List.exists_of_findSome?_eq_some hx
  exact hs.typed source hsource d hd x hgiven

theorem as_of_type_eq {x : OptionValue} (h : x.type = type) :
    ∃ value, x.as type = some value := by
  subst h
  exact ⟨x.value, x.as_type⟩

/-- An option with a default is always there, under its type. -/
theorem Stored.getOption_eq (hs : Stored table sources vm) (type : OptionType) (name : String)
    (x : type.Carrier) (hd : ⟨name, type, some x⟩ ∈ table) :
    getOption vm type name = .ok (valueOf? sources type name x) := by
  have hentry : vm name = _ := hs.entry _ hd
  rw [getOption, valueOf?, hentry]
  cases hfirst : sources.findSome? fun source ↦ source name with
  | some y =>
    obtain ⟨value, hvalue⟩ := as_of_type_eq (hs.type_eq hd hfirst)
    simp [hvalue]
  | none => simp [OptionDescription.entry, OptionValue.as]

/-- `GET_OPTION` falls back only where there is no default. -/
theorem Stored.getOptionOr_eq (hs : Stored table sources vm) (type : OptionType) (name : String)
    (default : Option type.Carrier) (fallback : type.Carrier)
    (hd : ⟨name, type, default⟩ ∈ table) :
    getOptionOr vm type name fallback =
      .ok (valueOf? sources type name (default.getD fallback)) := by
  have hentry : vm name = _ := hs.entry _ hd
  cases hdefault : default with
  | some x =>
    subst hdefault
    have hconfigured : optionConfigure vm name = true := by
      rw [optionConfigure, hentry]
      split <;> rfl
    rw [getOptionOr, if_pos hconfigured, hs.getOption_eq _ _ _ hd, Option.getD_some]
  | none =>
    subst hdefault
    rw [getOptionOr, optionConfigure, getOption, valueOf?, hentry]
    cases hfirst : sources.findSome? fun source ↦ source name with
    | some y =>
      obtain ⟨value, hvalue⟩ := as_of_type_eq (hs.type_eq hd hfirst)
      simp [hvalue]
    | none => simp [OptionDescription.entry]

/-! ## What the getters return -/

/-- The sources that `parse` looks at. -/
inductive Consulted (po : Boost) (argv : List String) (environment : List (String × String))
    (openFile : String → Option String) : List Source → Prop
  | withoutFile {line inherited : po.ParsedOptions} (hline : po.commandLineParser argv = .ok line)
      (hinherited : po.parseEnvironment environment = .ok inherited)
      (hfile : valueOf? [po.given line, po.given inherited] .bool confFile false = false) :
      Consulted po argv environment openFile [po.given line, po.given inherited]
  | withFile {line inherited file : po.ParsedOptions} {contents : String}
      (hline : po.commandLineParser argv = .ok line)
      (hinherited : po.parseEnvironment environment = .ok inherited)
      (hfile : valueOf? [po.given line, po.given inherited] .bool confFile false = true)
      (hname : valueOf? [po.given line, po.given inherited] .string confFileName "" ≠ "")
      (hopen : openFile (valueOf? [po.given line, po.given inherited] .string confFileName "") =
        some contents)
      (hcontents : po.parseConfigFile contents = .ok file) :
      Consulted po argv environment openFile
        [po.given line, po.given inherited, po.given file]

/-- What the sources say of the logger. -/
def logConfiguration (sources : List Source) : LogConfiguration where
  logLevel := valueOf? sources .string logLevel "info"
  logOnConsole := valueOf? sources .bool logOnConsole false
  logOnFile := valueOf? sources .bool logOnFile false
  logFileName := valueOf? sources .string logFileName ""
  logFileMaxSizeMb := valueOf? sources .int logFileMaxSize (1 : ℤ)
  logOnSyslog := valueOf? sources .bool logOnSyslog false
  logSyslogSrv := valueOf? sources .string syslogServer ""
  logSyslogSrvPort := valueOf? sources .int syslogPort (514 : ℤ)

/-- What the sources say of the consumer of commands. -/
def cmdControllerConfig (sources : List Source) : CMDControllerConfig where
  topicIn := valueOf? sources .string cmdInputTopic ""
  maxMessageToFetch := valueOf? sources .unsigned cmdMaxFecthCmd (10 : ℕ)
  fetchTimeOut := valueOf? sources .unsigned cmdMaxFetchTimeOut (250 : ℕ)

/-- What the sources say of the parameters of a driver. -/
def driverParameters (sources : List Source) (name : String) : Except OptionError MapStrKV :=
  (parseKVCustomParam (valueOf? sources .strings name ([] : List String))).mapError .runtimeError

/-- The getters return what the sources say. -/
structure Returns (actualPath : String) (sources : List Source) (vm : VariablesMap) : Prop where
  logger : getloggerConfiguration vm = .ok (logConfiguration sources)
  cmdController : getCMDControllerConfiguration vm = .ok (cmdControllerConfig sources)
  publisher : getPublisherConfiguration vm = (driverParameters sources pubImplKv).map fun map ↦
    ⟨valueOf? sources .string pubServerAddress "", map⟩
  subscriber : getSubscriberConfiguration vm = (driverParameters sources subImplKv).map fun map ↦
    ⟨valueOf? sources .string subServerAddress "",
      valueOf? sources .string subGroupId "ekg-default-group", map⟩
  storage : getStoragePath vm = .ok (valueOf? sources .string storagePath actualPath)

section Getters

variable (hs : Stored (options actualPath) sources vm)

include hs

theorem getloggerConfiguration_eq :
    getloggerConfiguration vm = .ok (logConfiguration sources) := by
  have hlevel := hs.getOption_eq .string logLevel "info" (by simp [options])
  have hconsole := hs.getOptionOr_eq .bool logOnConsole (some false) false (by simp [options])
  have hfile := hs.getOptionOr_eq .bool logOnFile (some false) false (by simp [options])
  have hname := hs.getOptionOr_eq .string logFileName none "" (by simp [options])
  have hsize := hs.getOptionOr_eq .int logFileMaxSize (some (1 : ℤ)) (1 : ℤ) (by simp [options])
  have hsyslog := hs.getOptionOr_eq .bool logOnSyslog (some false) false (by simp [options])
  have hserver := hs.getOptionOr_eq .string syslogServer none "" (by simp [options])
  have hport := hs.getOptionOr_eq .int syslogPort (some (514 : ℤ)) (514 : ℤ) (by simp [options])
  rw [getloggerConfiguration, hlevel, hconsole, hfile, hname, hsize, hsyslog, hserver, hport]
  rfl

/-- Both fallbacks of this getter are those of the other option, but they are never used. -/
theorem getCMDControllerConfiguration_eq :
    getCMDControllerConfiguration vm = .ok (cmdControllerConfig sources) := by
  have htopic := hs.getOptionOr_eq .string cmdInputTopic none "" (by simp [options])
  have hfetch := hs.getOptionOr_eq .unsigned cmdMaxFecthCmd (some (10 : ℕ)) (250 : ℕ)
    (by simp [options])
  have htimeOut := hs.getOptionOr_eq .unsigned cmdMaxFetchTimeOut (some (250 : ℕ)) (10 : ℕ)
    (by simp [options])
  rw [getCMDControllerConfiguration, htopic, hfetch, htimeOut]
  rfl

theorem getPublisherConfiguration_eq :
    getPublisherConfiguration vm = (driverParameters sources pubImplKv).map fun map ↦
      ⟨valueOf? sources .string pubServerAddress "", map⟩ := by
  have haddress := hs.getOptionOr_eq .string pubServerAddress none "" (by simp [options])
  have hparameters := hs.getOptionOr_eq .strings pubImplKv none ([] : List String)
    (by simp [options])
  rw [getPublisherConfiguration, haddress, hparameters]
  rfl

theorem getSubscriberConfiguration_eq :
    getSubscriberConfiguration vm = (driverParameters sources subImplKv).map fun map ↦
      ⟨valueOf? sources .string subServerAddress "",
        valueOf? sources .string subGroupId "ekg-default-group", map⟩ := by
  have haddress := hs.getOptionOr_eq .string subServerAddress none "" (by simp [options])
  have hgroup := hs.getOptionOr_eq .string subGroupId (some "ekg-default-group") ""
    (by simp [options])
  have hparameters := hs.getOptionOr_eq .strings subImplKv none ([] : List String)
    (by simp [options])
  rw [getSubscriberConfiguration, haddress, hgroup, hparameters]
  rfl

theorem returns_of_stored : Returns actualPath sources vm where
  logger := getloggerConfiguration_eq hs
  cmdController := getCMDControllerConfiguration_eq hs
  publisher := getPublisherConfiguration_eq hs
  subscriber := getSubscriberConfiguration_eq hs
  storage := hs.getOption_eq .string storagePath actualPath (by simp [options])

end Getters

theorem bind_eq_ok_iff {ε α β : Type} {x : Except ε α} {f : α → Except ε β} {b : β} :
    (x >>= f) = .ok b ↔ ∃ a, x = .ok a ∧ f a = .ok b := by
  cases x with
  | error e => exact iff_of_false nofun (by simp)
  | ok a => exact ⟨fun h ↦ ⟨a, rfl, h⟩, fun ⟨a', ha, h⟩ ↦ by cases ha; exact h⟩

theorem mapError_eq_ok_iff {ε ε' α : Type} {x : Except ε α} {f : ε → ε'} {a : α} :
    x.mapError f = .ok a ↔ x = .ok a := by
  cases x with
  | error e => exact iff_of_false nofun nofun
  | ok b => exact ⟨fun h ↦ by cases h; rfl, fun h ↦ by cases h; rfl⟩

variable {argv : List String} {environment : List (String × String)}
  {openFile : String → Option String}

/-- The file is read if what is stored so far asks for it. -/
theorem storeFile_cases (hs : Stored (options actualPath) sources vm)
    (h : storeFile po openFile vm = .ok vm') :
    (valueOf? sources .bool confFile false = false ∧ vm' = vm) ∨
      valueOf? sources .bool confFile false = true ∧
        valueOf? sources .string confFileName "" ≠ "" ∧ ∃ contents file,
        openFile (valueOf? sources .string confFileName "") = some contents ∧
          po.parseConfigFile contents = .ok file ∧ po.store file vm = .ok vm' := by
  have hfile := hs.getOption_eq .bool confFile false (by simp [options])
  have hname := hs.getOption_eq .string confFileName "" (by simp [options])
  rw [storeFile, hfile, hname] at h
  obtain ⟨fromFile, heq, h⟩ := bind_eq_ok_iff.mp h
  cases heq
  split at h
  · rename_i htrue
    obtain ⟨name, heq, h⟩ := bind_eq_ok_iff.mp h
    cases heq
    split at h
    · cases h
    · rename_i hempty
      split at h
      · cases h
      · rename_i contents hopen
        obtain ⟨file, hparsed, hstore⟩ := bind_eq_ok_iff.mp h
        have hne : valueOf? sources .string confFileName "" ≠ "" := fun heq ↦
          hempty (by rw [heq]; rfl)
        exact Or.inr ⟨htrue, hne, contents, file, hopen, hparsed, hstore⟩
  · rename_i hfalse
    cases h
    exact Or.inl ⟨Bool.eq_false_iff.mpr hfalse, rfl⟩

theorem stored_of_parse (hpo : po.Documented (options actualPath))
    (h : parse po argv environment openFile = .ok vm) :
    ∃ sources, Consulted po argv environment openFile sources ∧
      Stored (options actualPath) sources vm := by
  obtain ⟨line, hline, h⟩ := bind_eq_ok_iff.mp (mapError_eq_ok_iff.mp h)
  obtain ⟨first, hfirst, h⟩ := bind_eq_ok_iff.mp h
  obtain ⟨inherited, hinherited, h⟩ := bind_eq_ok_iff.mp h
  obtain ⟨second, hsecond, h⟩ := bind_eq_ok_iff.mp h
  have hs := (stored_first hpo hfirst).next hpo hsecond
  rcases storeFile_cases hs h with ⟨hfile, rfl⟩ | ⟨hfile, hname, _, _, hopen, hcontents, hthird⟩
  · exact ⟨_, .withoutFile hline hinherited hfile, hs⟩
  · exact ⟨_, .withFile hline hinherited hfile hname hopen hcontents, hs.next hpo hthird⟩

/-- **What the services are configured with.**  Once `parse` has returned, every field of every
configuration is what the first of the consulted sources says, or the declared default; and the
parameters of a driver are all that a getter can object to. -/
theorem configuration_of_parse (hpo : po.Documented (options actualPath))
    (h : parse po argv environment openFile = .ok vm) :
    ∃ sources, Consulted po argv environment openFile sources ∧ Returns actualPath sources vm := by
  obtain ⟨sources, hconsulted, hstored⟩ := stored_of_parse hpo h
  exact ⟨sources, hconsulted, returns_of_stored hstored⟩

/-- What converted options have for a declared option. -/
def convertedValue (table : List OptionDescription) (parsed : List (String × OptionValue))
    (name : String) : Option OptionValue :=
  (table.find? fun d ↦ d.name == name).bind fun d ↦
    (parsed.lookup name).filter fun x ↦ x.type = d.type

/-- The library, for one command line, environment and file, whose values have been converted
already. -/
def Boost.converted (table : List OptionDescription)
    (line inherited file : List (String × OptionValue)) : Boost where
  ParsedOptions := List (String × OptionValue)
  commandLineParser _ := .ok line
  parseEnvironment _ := .ok inherited
  parseConfigFile _ := .ok file
  given := convertedValue table
  store parsed vm := .ok fun name ↦
    match vm name with
    | some ⟨x, false⟩ => some ⟨x, false⟩
    | entry =>
      match convertedValue table parsed name with
      | some x => some ⟨x, false⟩
      | none => entry.or ((table.find? fun d ↦ d.name == name).bind OptionDescription.entry)

theorem documented_converted {line inherited file : List (String × OptionValue)}
    (hfind : ∀ d ∈ table, (table.find? fun d' ↦ d'.name == d.name) = some d) :
    (Boost.converted table line inherited file).Documented table where
  kept parsed vm vm' name v h hv hdefaulted := by
    cases h
    obtain ⟨x, defaulted⟩ := v
    cases hdefaulted
    simp only [hv]
  taken parsed vm vm' name x h hopen hx := by
    cases h
    have hgiven : convertedValue table parsed name = some x := hx
    cases hentry : vm name with
    | none => simp only [hentry, hgiven]
    | some v =>
      obtain ⟨y, defaulted⟩ := v
      have hdefaulted : defaulted = true := hopen _ hentry
      subst hdefaulted
      simp only [hentry, hgiven]
  supplied parsed vm vm' d h hd hopen hnone := by
    cases h
    have hgiven : convertedValue table parsed d.name = none := hnone
    cases hentry : vm d.name with
    | none => simp only [hentry, hgiven, hfind d hd, Option.bind_some]
    | some v =>
      obtain ⟨y, defaulted⟩ := v
      have hdefaulted : defaulted = true := hopen _ hentry
      subst hdefaulted
      simp only [hentry, hgiven, hfind d hd, Option.bind_some]
  typed parsed d x hd hx := by
    have hgiven : (table.find? fun d' ↦ d'.name == d.name).bind (fun d' ↦
        (List.lookup d.name parsed).filter fun x ↦ x.type = d'.type) = some x := hx
    rw [hfind d hd, Option.bind_some, Option.filter_eq_some_iff] at hgiven
    exact of_decide_eq_true hgiven.2

theorem find?_options (actualPath : String) : ∀ d ∈ options actualPath,
    ((options actualPath).find? fun d' ↦ d'.name == d.name) = some d := by
  intro d hd
  simp only [options, List.mem_cons, List.not_mem_nil, or_false] at hd
  rcases hd with rfl | rfl | rfl | rfl | rfl | rfl | rfl | rfl | rfl | rfl | rfl | rfl | rfl |
    rfl | rfl | rfl | rfl | rfl | rfl | rfl <;> rfl

/-- The library, for a command line with a number, an environment that asks for a file, and the
file, which speaks against it and has the number as well. -/
def fileBoost : Boost :=
  .converted (options "/ekg.sqlite") [(cmdMaxFecthCmd, ⟨.unsigned, (20 : ℕ)⟩)]
    [(confFile, ⟨.bool, true⟩), (confFileName, ⟨.string, "ekg.conf"⟩)]
    [(confFile, ⟨.bool, false⟩), (cmdMaxFecthCmd, ⟨.unsigned, (30 : ℕ)⟩)]

/-- The file is read, and what was said before it stands. -/
theorem configuration_of_parse_file : ∃ vm sources,
    parse fileBoost ["ekg", "--cmd-max-fecth-element=20"]
        [("EPICS_ekg_conf-file", "true"), ("EPICS_ekg_conf-file-name", "ekg.conf")]
        (fun _ ↦ some "conf-file=false\ncmd-max-fecth-element=30") = .ok vm ∧
      Consulted fileBoost ["ekg", "--cmd-max-fecth-element=20"]
        [("EPICS_ekg_conf-file", "true"), ("EPICS_ekg_conf-file-name", "ekg.conf")]
        (fun _ ↦ some "conf-file=false\ncmd-max-fecth-element=30") sources ∧
      Returns "/ekg.sqlite" sources vm := by
  obtain ⟨vm, hparse⟩ : ∃ vm, parse fileBoost ["ekg", "--cmd-max-fecth-element=20"]
      [("EPICS_ekg_conf-file", "true"), ("EPICS_ekg_conf-file-name", "ekg.conf")]
      (fun _ ↦ some "conf-file=false\ncmd-max-fecth-element=30") = .ok vm := ⟨_, rfl⟩
  obtain ⟨sources, h⟩ := configuration_of_parse (documented_converted (find?_options _)) hparse
  exact ⟨vm, sources, hparse, h⟩

end Ekg.ProgramOptions
