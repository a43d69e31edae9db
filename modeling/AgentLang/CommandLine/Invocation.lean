import AgentLang.CommandLine.Arguments
import AgentLang.Files.Access

/-!
# Commands

What the user asks for. Words that ask for nothing are misuse.
-/

namespace AgentLang.CommandLine

inductive Invocation where
  | version
  | help
  | backends
  | compile (file : Path) (backend : Option String) (config output : Option Path) (verbose : Bool)
  | parse (file : Path) (verbose : Bool)
  | evaluate (file : Path) (module node : Option String) (arguments : String) (verbose : Bool)
  deriving DecidableEq, Repr

namespace Invocation

def helpFlag : Flag := ⟨"help", "--help", none, false⟩

def verboseFlag : Flag := ⟨"verbose", "--verbose", none, false⟩

def globalFlags : List Flag := [⟨"version", "--version", some 'V', false⟩, helpFlag]

def compileFlags : List Flag := [
  ⟨"backend", "--backend", some 'b', true⟩,
  ⟨"config", "--config", some 'c', true⟩,
  ⟨"output", "--output", some 'o', true⟩,
  verboseFlag, helpFlag]

def evaluateFlags : List Flag := [
  ⟨"module", "--module", some 'm', true⟩,
  ⟨"node", "--node", some 'n', true⟩,
  ⟨"args", "--args", none, true⟩,
  verboseFlag, helpFlag]

/-- The path of an argument. Text that can name nothing is misuse. -/
def pathOf? (text : String) : Option Path :=
  let path := Path.ofText text
  if path.isNameable then some path else none

/-- The path of an option, when it is given. -/
def pathOption? (arguments : Arguments) (key : String) : Option (Option Path) :=
  match arguments.value? key with
  | none => some none
  | some text => (pathOf? text).map some

/-- A command with its arguments, of which one is a file. -/
def withFile (flags : List Flag) (words : List String)
    (build : Path → Arguments → Option Invocation) : Option Invocation := do
  let arguments ← Arguments.read flags true words
  if arguments.has "help" then return .help
  match arguments.plain with
  | [file] => build (← pathOf? file) arguments
  | _ => none

def ofCommand (command : String) (words : List String) : Option Invocation :=
  match command with
  | "compile" =>
    withFile compileFlags words fun file arguments =>
      return .compile file (arguments.value? "backend") (← pathOption? arguments "config")
        (← pathOption? arguments "output") (arguments.has "verbose")
  | "parse" =>
    withFile [verboseFlag, helpFlag] words fun file arguments =>
      return .parse file (arguments.has "verbose")
  | "evaluate" =>
    withFile evaluateFlags words fun file arguments =>
      return .evaluate file (arguments.value? "module") (arguments.value? "node")
        ((arguments.value? "args").getD "[]") (arguments.has "verbose")
  | "backends" => do
    let arguments ← Arguments.read [helpFlag] true words
    if arguments.has "help" then return .help
    if arguments.plain.isEmpty then return .backends else none
  | _ => none

/-- What words on the command line ask for. -/
def ofWords (words : List String) : Option Invocation := do
  let arguments ← Arguments.read globalFlags false words
  if arguments.has "version" then return .version
  if arguments.has "help" then return .help
  match arguments.plain with
  | [] => none
  | command :: rest => ofCommand command rest

end Invocation
end AgentLang.CommandLine
