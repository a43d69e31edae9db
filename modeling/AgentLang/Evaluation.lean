import AgentLang.Compile.Declared
import AgentLang.Compile.Registry
import AgentLang.Template
import AgentLang.Text.Identifier

/-!
# Evaluation scripts

A small script that runs one node of a compiled module from outside and keeps the result.
-/

namespace AgentLang

inductive EvaluationError where
  | invalidModule (name : String)
  | allPrivate
  | noNodes
  | notFound (name : String) (available : List String)
  | isPrivate (name : String)
  deriving DecidableEq, Repr

def EvaluationError.message : EvaluationError → String
  | .invalidModule name =>
    "'" ++ name ++ "' is not a valid Python module name. Rename the compiled "
      ++ "module or pass its import name with --module."
  | .allPrivate =>
    "All graph nodes are private. Mark one node public, or leave its "
      ++ "visibility unset, to use it as an entry point."
  | .noNodes =>
    "No graph nodes found in the program. At least one public graph node is "
      ++ "required as an entry point."
  | .notFound name available =>
    "Node '" ++ name ++ "' not found. Available nodes: " ++ listText available
  | .isPrivate name => "Node '" ++ name ++ "' is private and has no entry point"

/-- Words that are not names of modules. -/
def reservedWords : List String := [
  "False", "None", "True", "and", "as", "assert", "async", "await", "break", "class", "continue",
  "def", "del", "elif", "else", "except", "finally", "for", "from", "global", "if", "import", "in",
  "is", "lambda", "nonlocal", "not", "or", "pass", "raise", "return", "try", "while", "with",
  "yield"]

/-- Identifiers with points between them. -/
def isModuleName (name : String) : Bool :=
  (Text.splitAt '.' name.toList).all fun part =>
    let word := String.ofList part
    Text.isIdentifier word && word ∉ reservedWords

structure Evaluation where
  module : String
  node : String
  /-- The arguments that are used when none are given. -/
  arguments : List LooseJson

namespace Evaluation

def resultFile : String := "__evaluate.json"

/-- The node of the given name, or the first that can be run from outside. -/
def pickNode (program : Program) : Option String → Except EvaluationError GraphNode
  | some name =>
    match program.graphNode? name with
    | none => .error (.notFound name (program.graphNodes.map (·.name)))
    | some node => if node.isEntry then .ok node else .error (.isPrivate name)
  | none =>
    match program.graphNodes.find? (·.isEntry) with
    | some node => .ok node
    | none => .error (if program.graphNodes.isEmpty then .noNodes else .allPrivate)

def ofProgram (program : Program) (module : String) (node : Option String)
    (arguments : List LooseJson) : Except EvaluationError Evaluation := do
  if isModuleName module then
    let node ← pickNode program node
    return ⟨module, node.name, arguments⟩
  else
    throw (.invalidModule module)

def template : Template := [
  .text (Text.joinLines [
    "# Evaluation harness generated by adlc. Do not edit.",
    "import json",
    "import sys",
    "",
    "from "]),
  .marker "module_name", .text " import run_", .marker "node_name",
  .text "\n\nRESULT_FILE = ", .marker "result_file",
  .text (Text.joinLines ["", "", "", "def run_evaluation(args):", "    result = run_"]),
  .marker "node_name",
  .text (Text.joinLines [
    "(*args)",
    "    print(\"Evaluation result:\", result)",
    "    with open(RESULT_FILE, \"w\", encoding=\"utf-8\") as f:",
    "        json.dump(\x7b\"node\": "]),
  .marker "node_key",
  .text (Text.joinLines [
    ", \"args\": args, \"data\": result\x7d, f, indent=2, default=str)",
    "    return result",
    "",
    "",
    "if __name__ == \"__main__\":",
    "    run_evaluation(json.loads(sys.argv[1]) if len(sys.argv) > 1 else "]),
  .marker "default_args", .text ")\n"]

/-- The default arguments as a literal of the script. -/
def argumentsLiteral (evaluation : Evaluation) : String :=
  (JsonOf.array evaluation.arguments).literalWith Text.Loose.quotePlain

def toText (evaluation : Evaluation) : String :=
  template.fill [
    ("module_name", .string evaluation.module),
    ("node_name", .string evaluation.node),
    ("node_key", .string (Text.quoteAscii evaluation.node)),
    ("result_file", .string (Text.quoteAscii resultFile)),
    ("default_args", .string evaluation.argumentsLiteral)]

end Evaluation
end AgentLang
