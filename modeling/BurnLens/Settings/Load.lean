import BurnLens.File.System
import BurnLens.Settings.EnvFile
import BurnLens.Settings.Value

/-! # Settings

Each setting comes from the first of these that names it: the arguments of a call, the environment,
the environment file of the working folder, the default. Environment names carry the mark `BURN_`
and are compared without regard to case. All values that are wrong are reported at once. -/

namespace BurnLens

structure Settings where
  compilerPath : String := "burn"
  compilerTimeout : Binary64 := .ofInt 5
  /-- The most diagnostics published per document. -/
  maxProblems : Nat := 100
  /-- The most documents kept in the diagnostics cache. -/
  cacheSize : Nat := 256
  sourceExtension : String := ".bn"
  libraryMark : String := "std/"
  libraryFolder : String := "src/lib"
  logLevel : String := "INFO"
  deriving DecidableEq, Repr

/-- The names of the settings. -/
inductive SettingName where
  | compilerPath
  | compilerTimeout
  | maxProblems
  | cacheSize
  | sourceExtension
  | libraryMark
  | libraryFolder
  | logLevel
  deriving DecidableEq, Repr

def SettingName.label : SettingName → String
  | .compilerPath => "compiler_path"
  | .compilerTimeout => "compiler_timeout_seconds"
  | .maxProblems => "max_number_of_problems"
  | .cacheSize => "diagnostics_cache_size"
  | .sourceExtension => "source_extension"
  | .libraryMark => "stdlib_prefix"
  | .libraryFolder => "stdlib_dir"
  | .logLevel => "log_level"

/-- A setting with a wrong value. -/
structure SettingFault where
  name : SettingName
  fault : ValueFault
  deriving DecidableEq, Repr

/-- Why there are no settings. -/
inductive SettingsFault where
  /-- The environment file may not be read. -/
  | file (fault : FileFault)
  /-- The environment file is not UTF-8. -/
  | envFile (fault : Text.Utf8.Fault)
  | values (faults : List SettingFault)
  deriving DecidableEq, Repr

namespace Settings

/-- Where settings come from. -/
structure Sources where
  arguments : List (String × SettingValue) := []
  environment : OrderedMap String := {}
  envFile : OrderedMap (Option String) := {}

/-- The name of a setting in the environment, in lower case. -/
def environmentName (name : SettingName) : String :=
  "burn_" ++ name.label

/-- The value of a name without regard to case; of several spellings the last counts. -/
def lookupAnyCase {α : Type} (m : OrderedMap α) (name : String) : Option α :=
  (m.entries.reverse.find? fun e => Text.lowerAscii e.1 = name).map (·.2)

/-- The value given for a setting, if any. -/
def Sources.value? (s : Sources) (name : SettingName) : Option SettingValue :=
  s.arguments.lookup name.label
    |>.or ((lookupAnyCase s.environment (environmentName name)).map .text)
    |>.or ((lookupAnyCase s.envFile (environmentName name)).join.map .text)

/-- Reads one setting; the default stands when none is given. -/
def read {α : Type} (s : Sources) (name : SettingName)
    (convert : SettingValue → Except ValueFault α) (default : α) : Except (List SettingFault) α :=
  match s.value? name with
  | none => .ok default
  | some v => (convert v).mapError fun fault => [⟨name, fault⟩]

/-- Applies a function in one result to the value in another, collecting the faults of both. -/
def also {α β : Type} (f : Except (List SettingFault) (α → β)) (x : Except (List SettingFault) α) :
    Except (List SettingFault) β :=
  match f, x with
  | .ok f, .ok x => .ok (f x)
  | .error e, .ok _ => .error e
  | .ok _, .error e => .error e
  | .error e, .error e' => .error (e ++ e')

/-- All settings from their sources, or everything that is wrong, in the order of the settings. -/
def ofSources (s : Sources) : Except (List SettingFault) Settings :=
  let d : Settings := {}
  also (also (also (also (also (also (also (also (.ok Settings.mk)
    (read s .compilerPath SettingValue.toText d.compilerPath))
    (read s .compilerTimeout SettingValue.positive d.compilerTimeout))
    (read s .maxProblems (SettingValue.atLeast 0) d.maxProblems))
    (read s .cacheSize (SettingValue.atLeast 1) d.cacheSize))
    (read s .sourceExtension SettingValue.toText d.sourceExtension))
    (read s .libraryMark SettingValue.toText d.libraryMark))
    (read s .libraryFolder SettingValue.toText d.libraryFolder))
    (read s .logLevel SettingValue.toText d.logLevel)

/-- The environment file of the working folder. -/
def envFileOf (fs : FileSystem) (environment : OrderedMap String) :
    Except SettingsFault (OrderedMap (Option String)) := do
  match fs.locate ".env" with
  | .ok (place, .file octets) =>
    if fs.unreadable.contains place then .error (.file (.denied ".env"))
    else
      let cs ← (Text.Utf8.read octets).mapError .envFile
      return EnvFile.read environment (Text.unifyNewlines cs)
  | .error .denied => .error (.file (.denied ".env"))
  | _ => return .empty

/-- Settings from arguments, the environment and the environment file. -/
def load (fs : FileSystem) (environment : OrderedMap String)
    (arguments : List (String × SettingValue)) : Except SettingsFault Settings := do
  let envFile ← envFileOf fs environment
  (ofSources { arguments, environment, envFile }).mapError .values

end Settings

/-- The settings shared by a process, read when they are first asked for. -/
structure SettingsStore where
  current : Option Settings := none
  deriving DecidableEq, Repr

/-- The shared settings. A failed reading is not kept. -/
def SettingsStore.get (store : SettingsStore) (fs : FileSystem) (environment : OrderedMap String) :
    SettingsStore × Except SettingsFault Settings :=
  match store.current with
  | some settings => (store, .ok settings)
  | none =>
    match Settings.load fs environment [] with
    | .ok settings => (⟨some settings⟩, .ok settings)
    | .error fault => (store, .error fault)

end BurnLens
