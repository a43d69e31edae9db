import AgentLang.CommandLine.Invocation
import AgentLang.CommandLine.Table
import AgentLang.Config
import AgentLang.Evaluation
import AgentLang.Json.Read
import AgentLang.SourceFile
import AgentLang.Syntax.Encode

/-!
# Running commands

A command reads files, keeps a journal and ends with a text, a refusal or a crash. The journal is
shown on the error output down to the level that is asked for.
-/

namespace AgentLang.CommandLine

/-! ### Journal -/

/-- The part of the program that an entry of the journal is from. -/
inductive Origin where
  | commands
  | grammar
  | sourceFile
  | backends
  | backend (backend : Backend)
  | compiler
  | evaluation

def Origin.name : Origin → String
  | .commands => "adl.cli.commands"
  | .grammar => "adl.core.parser_impl"
  | .sourceFile => "adl.core.parser"
  | .backends => "adl.stacks"
  | .backend chosen => "adl.stacks." ++ chosen.name ++ ".generator"
  | .compiler => "adl.stacks.base.generator"
  | .evaluation => "adl.stacks.harness"

structure Entry where
  level : LogLevel
  origin : Origin
  message : String

def Entry.toText (entry : Entry) : String :=
  "[" ++ entry.level.name ++ "] " ++ entry.origin.name ++ ": " ++ entry.message ++ "\n"

structure Journal where
  threshold : LogLevel := .warning
  entries : List Entry := []

/-- The entries that are shown. -/
def Journal.toText (journal : Journal) : String :=
  String.join ((journal.entries.filter (journal.threshold.rank ≤ ·.level.rank)).map Entry.toText)

/-! ### Ends -/

/-- Something that no command expects. -/
inductive Crash where
  | config (error : ConfigError)
  /-- The search for a configuration file. -/
  | search (fault : FileFault)
  | compile (error : CompileError)
  | arguments (error : Json.ReadError)
  | write (fault : FileFault)

inductive Failure where
  | refused (message : String)
  | crashed (crash : Crash)

/-- How a run ends. -/
inductive Outcome where
  | finished (output errors : String)
  | failed (errors : String)
  | misused
  | crashed (crash : Crash)

def Outcome.exitCode : Outcome → Nat
  | .finished .. => 0
  | .failed _ => 1
  | .misused => 2
  | .crashed _ => 1

/-! ### Steps of commands -/

abbrev Command (m : Type → Type) := ExceptT Failure (StateT Journal m)

section

variable {m : Type → Type} [Monad m] {α : Type}

def note (level : LogLevel) (origin : Origin) (message : String) : Command m Unit :=
  modify fun journal => { journal with entries := journal.entries ++ [⟨level, origin, message⟩] }

def setThreshold (level : LogLevel) (verbose : Bool) : Command m Unit :=
  modify fun journal => { journal with threshold := if verbose then .debug else level }

def refuse (message : String) : Command m α := throw (.refused ("Error: " ++ message ++ "\n"))

def crash (crash : Crash) : Command m α := throw (.crashed crash)

def inFiles (step : m α) : Command m α := liftM step

/-- Counts of words, as they are shown. -/
def countsText (counts : List (String × Nat)) : String :=
  Json.literal (.object (counts.map fun (word, count) => (word, .int count)))

def loadConfig (files : FileAccess m) (config : Option Path) (source : Path) (verbose : Bool) :
    Command m Config := do
  let path ← match config with
    | some path => pure (some path)
    | none =>
      match ← inFiles (Config.find files source.parent) with
      | .ok found => pure found
      | .error fault => crash (.search fault)
  match ← inFiles (Config.load files path) with
  | .error .tooManyDigits => crash (.config .tooManyDigits)
  | .error e => refuse e.message
  | .ok config =>
    setThreshold config.level verbose
    match config.source with
    | some path =>
      note .info .commands
        ("Using config " ++ path.toText ++ " (backend=" ++ config.backend.name ++ ")")
    | none => note .info .commands "No adl.toml found, using defaults"
    return config

def loadSource (files : FileAccess m) (path : Path) : Command m Program := do
  match ← inFiles (SourceFile.load files path) with
  | .error (.malformed e) =>
    note .debug .grammar
      ("Parse failed at offset " ++ Json.intText e.position ++ ": " ++ e.message)
    throw (.refused ("Parse error: " ++ e.diagnostic ++ "\n"))
  | .error e => refuse e.message
  | .ok source =>
    let program := source.program
    note .debug .grammar ("Parsed " ++ Nat.repr source.text.length ++ " characters into "
      ++ Nat.repr program.nodes.length ++ " top-level nodes")
    note .info .sourceFile
      ("Parsed " ++ path.toText ++ ": " ++ countsText program.tagCounts)
    return program

/-- How many lines the statements of a module have. -/
def bodyLines (module : Target.Module) : Nat :=
  (module.sections.flatMap fun
    | .statements body => Target.Stmt.listLines body
    | _ => []).length

def layoutText (program : Program) (module : Target.Module) : Backend → String
  | .script => "Script body: " ++ Nat.repr (bodyLines module) ++ " lines from "
      ++ Nat.repr program.nodes.length ++ " nodes"
  | .graph => "Graph layout: " ++ Nat.repr module.steps.length ++ " steps, "
      ++ Nat.repr program.graphNodes.length ++ " nodes, " ++ Nat.repr module.entries.length
      ++ " entry points"

def builtinsText (used : List Target.Builtin) : String :=
  if used.isEmpty then "none" else listText (Names.ofList (used.map (·.name))).list

/-- Whether the user can be told, or the program ends here. -/
def compileFailure (e : CompileError) : Command m α :=
  match e with
  | .unsupported .. => refuse e.message
  | .unknownTool _ => refuse e.message
  | .unknownSpecial _ => refuse e.message
  | .notBuiltin _ => refuse e.message
  | .badNumber _ => crash (.compile e)
  | .noImportedName => crash (.compile e)
  | .noOpenFrame => crash (.compile e)
  | .unwritable _ => crash (.compile e)

def compileProgram (program : Program) (backend : Option String) (config : Config) :
    Command m String := do
  let name := (backend.filter (!·.isEmpty)).getD config.backend.name
  note .debug .backends ("Generating with backend '" ++ name ++ "'")
  match Registry.standard.get name with
  | .error e => refuse e.message
  | .ok backend =>
    match program.compile (config.options backend) with
    | .error e => compileFailure e
    | .ok compiled =>
      let text := compiled.module.toText
      note .debug (.backend backend) (layoutText program compiled.module backend)
      note .info .compiler ("Generated " ++ backend.name ++ " code: "
        ++ Nat.repr (text.toList.count '\n') ++ " lines, builtins used: "
        ++ builtinsText compiled.state.used)
      return text

/-- The arguments of a node, given as an array. -/
def nodeArguments (text : String) : Command m (List LooseJson) :=
  match Json.read text.toList with
  | .ok (.array items) => return items
  | .ok _ => refuse "--args must be a JSON array"
  | .error e =>
    match e.fault with
    | .digits => crash (.arguments e)
    | _ => refuse ("--args is not valid JSON: " ++ e.describe text.toList)

/-! ### Commands -/

/-- A text for the output and one for the error output. -/
abbrev Texts := String × String

def compile (files : FileAccess m) (file : Path) (backend : Option String)
    (config output : Option Path) (verbose : Bool) : Command m Texts := do
  let config ← loadConfig files config file verbose
  let program ← loadSource files file
  let text ← compileProgram program backend config
  match output with
  | none => return (text, "")
  | some path =>
    match ← inFiles (files.write path text) with
    | .ok () => return ("", "Wrote " ++ path.toText ++ "\n")
    | .error fault => crash (.write fault)

def parse (files : FileAccess m) (file : Path) (verbose : Bool) : Command m Texts := do
  setThreshold .warning verbose
  let program ← loadSource files file
  return (program.toJson.indented 0 ++ "\n", "")

def evaluate (files : FileAccess m) (file : Path) (module node : Option String)
    (arguments : String) (verbose : Bool) : Command m Texts := do
  setThreshold .warning verbose
  let arguments ← nodeArguments arguments
  let program ← loadSource files file
  let module := (module.filter (!·.isEmpty)).getD file.stem
  match Evaluation.ofProgram program module node arguments with
  | .error e => refuse e.message
  | .ok evaluation =>
    note .debug .evaluation
      ("Evaluation harness for " ++ evaluation.module ++ "." ++ evaluation.node)
    return (evaluation.toText, "")

def backendTable : Table where
  title := "Backends"
  head := ["Name", "Description"]
  rows := Registry.standard.names.map fun name =>
    [name, ((Registry.standard.find? name).map Backend.summary).getD ""]

def version : String := "adlc 0.3.0"

def usage : String :=
  Text.joinLines [
    "adlc - compiler for ADL agent workflows",
    "",
    "  adlc compile FILE [--backend NAME] [--config FILE] [--output FILE] [--verbose]",
    "  adlc parse FILE [--verbose]",
    "  adlc evaluate FILE [--module NAME] [--node NAME] [--args JSON] [--verbose]",
    "  adlc backends",
    "  adlc --version",
    ""]

def command (files : FileAccess m) : Invocation → Command m Texts
  | .version => return (version ++ "\n", "")
  | .help => return (usage, "")
  | .backends => return (backendTable.toText, "")
  | .compile file backend config output verbose => compile files file backend config output verbose
  | .parse file verbose => parse files file verbose
  | .evaluate file module node arguments verbose =>
    evaluate files file module node arguments verbose

/-- Runs what words on the command line ask for. -/
def run (files : FileAccess m) (words : List String) : m Outcome := do
  match Invocation.ofWords words with
  | none => return .misused
  | some invocation =>
    let (result, journal) ← (command files invocation).run.run {}
    match result with
    | .ok (output, errors) => return .finished output (journal.toText ++ errors)
    | .error (.refused message) => return .failed (journal.toText ++ message)
    | .error (.crashed crash) => return .crashed crash

end

end AgentLang.CommandLine
