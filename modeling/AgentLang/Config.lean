import AgentLang.Compile.Program
import AgentLang.Compile.Registry
import AgentLang.Files.Access
import AgentLang.Text.Upper
import AgentLang.Text.Utf8
import AgentLang.Toml.Read

/-!
# Configuration

Settings come from a file of a fixed name, found in a directory or the nearest one above it that has
such a file. What the file does not say has a default.
-/

namespace AgentLang

inductive ConfigError where
  | notFound (path : Path)
  | unreadable (path : Path) (fault : FileFault)
  | notUtf8 (path : Path)
  | invalid (path : Path)
  /-- A number has more digits than are read. -/
  | tooManyDigits
  | notTable (name : String) (path : Path) (kind : String)
  | unknownBackend (name : String) (path : Path)
  | invalidLevel (name : String) (path : Path)
  deriving DecidableEq, Repr

def ConfigError.message : ConfigError → String
  | .notFound path => "Config file not found: " ++ path.toText
  | .unreadable path fault => "Cannot read config file " ++ path.toText ++ ": " ++ fault.message
  | .notUtf8 path => "Config file " ++ path.toText ++ " is not valid UTF-8"
  | .invalid path => "Invalid TOML in " ++ path.toText
  | .tooManyDigits => "A number has too many digits"
  | .notTable name path kind =>
    "[" ++ name ++ "] in " ++ path.toText ++ " must be a table, got " ++ kind
  | .unknownBackend name path =>
    "Unknown backend '" ++ name ++ "' in " ++ path.toText ++ ". Available backends: "
      ++ listText ["script", "graph"]
  | .invalidLevel name path => "Invalid log_level '" ++ name ++ "' in " ++ path.toText

inductive LogLevel where
  | debug
  | info
  | warning
  | error
  | critical
  deriving DecidableEq, Repr

namespace LogLevel

def all : List LogLevel := [.debug, .info, .warning, .error, .critical]

def name : LogLevel → String
  | .debug => "DEBUG"
  | .info => "INFO"
  | .warning => "WARNING"
  | .error => "ERROR"
  | .critical => "CRITICAL"

def ofName? (name : String) : Option LogLevel :=
  all.find? (·.name == name)

def rank : LogLevel → Nat
  | .debug => 0
  | .info => 1
  | .warning => 2
  | .error => 3
  | .critical => 4

end LogLevel

structure Config where
  backend : Backend := .script
  /-- The model, unless it has no written form. -/
  model : Except Json.Unwritable Json := .ok (.string "gpt-4o-mini")
  host : Except Json.Unwritable Json := .ok (.string "http://localhost:1065")
  level : LogLevel := .warning
  debug : Bool := false
  /-- The file that the configuration comes from. -/
  source : Option Path := none

namespace Config

def fileName : String := "adl.toml"

/-- A table of a document, empty where there is none. -/
def table (path : Path) (name : String) (entries : Toml.Entries) :
    Except ConfigError Toml.Entries :=
  match entries.lookup name with
  | none => .ok []
  | some (.table inner) => .ok inner
  | some value => .error (.notTable name path value.kind)

/-- The value inside a message. -/
def shown (value : Toml) : Except ConfigError String :=
  match value.display? with
  | some text => .ok text
  | none => .error .tooManyDigits

def backendOf (path : Path) : Toml → Except ConfigError Backend
  | .string "script" => .ok .script
  | .string "graph" => .ok .graph
  | value => do throw (.unknownBackend (← shown value) path)

def levelOf (path : Path) (name : String) : Except ConfigError LogLevel :=
  match LogLevel.ofName? name with
  | some level => .ok level
  | none => .error (.invalidLevel name path)

/-- The settings of a document. -/
def ofEntries (path : Path) (entries : Toml.Entries) : Except ConfigError Config := do
  let compiler ← table path "compiler" entries
  let graph ← table path "graph" entries
  let text (name default : String) : Toml := (compiler.lookup name).getD (.string default)
  let level ← shown (text "log_level" "WARNING")
  let backend ← backendOf path (text "backend" "script")
  let level ← levelOf path (Text.upper level)
  return {
    backend := backend
    model := (text "default_model" "gpt-4o-mini").toJson
    host := (text "statelog_host" "http://localhost:1065").toJson
    level := level
    debug := (graph.lookup "debug").any Toml.truth
    source := some path }

/-- The settings of a file with the given bytes. -/
def ofBytes (path : Path) (bytes : List UInt8) : Except ConfigError Config :=
  match Text.readText bytes with
  | .error _ => .error (.notUtf8 path)
  | .ok text =>
    match Toml.read text.toList with
    | .error .invalid => .error (.invalid path)
    | .error .digits => .error .tooManyDigits
    | .ok entries => ofEntries path entries

variable {m : Type → Type} [Monad m]

/-- Reads a configuration file. Without one there are the defaults. -/
def load (files : FileAccess m) : Option Path → m (Except ConfigError Config)
  | none => return .ok {}
  | some path => do
    match ← files.read path with
    | .ok bytes => return ofBytes path bytes
    | .error .missing => return .error (.notFound path)
    | .error fault => return .error (.unreadable path fault)

/-- The nearest configuration file of a way, which is kept from its end. -/
def findAlong (files : FileAccess m) (root : Nat) :
    (way : List String) → m (Except FileFault (Option Path))
  | [] => do
    let candidate : Path := ⟨root, [fileName]⟩
    return (← files.isFile candidate).map fun found => if found then some candidate else none
  | name :: way => do
    let candidate : Path := ⟨root, (fileName :: name :: way).reverse⟩
    match ← files.isFile candidate with
    | .error fault => return .error fault
    | .ok true => return .ok (some candidate)
    | .ok false => findAlong files root way

/-- The nearest configuration file of a directory and those above it. -/
def find (files : FileAccess m) (start : Path) : m (Except FileFault (Option Path)) := do
  if start.isNameable then
    let start := Path.absolute (← files.workingDirectory) start
    findAlong files start.root start.names.reverse
  else
    return .error .unnameable

def options (config : Config) (backend : Backend) : CompileOptions :=
  { backend := backend, model := config.model, host := config.host, debug := config.debug }

end Config
end AgentLang
