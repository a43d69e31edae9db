import AgentLang.Names
import AgentLang.Target.Builtin
import AgentLang.Target.Stmt

/-!
# Modules of emitted code

A module is a list of sections between fixed texts. A module with a graph also has the edges between
its steps, in program order, and a last section that runs the graph.
-/

namespace AgentLang.Target

inductive Section where
  | statements (body : List Stmt)
  /-- Registers a function as a node of the graph. -/
  | functionNode (name : String) (arity : Nat) (holder : Temp)
  /-- A function that runs the graph from a node. -/
  | entryPoint (node : String)
  /-- A statement of the top level as a node of the graph, with the names that it assigns. -/
  | step (temp : Temp) (assigned : Names) (body : List Stmt)

structure GraphSetup where
  name : String
  debug : Bool

structure Module where
  model : Json
  host : Json
  graph : Option GraphSetup
  used : List Builtin
  sections : List Section

/-! ### Fixed texts -/

def preludeTemplate : Template := [
  .text (Text.joinLines [
    "# Generated by adlc. Do not edit.",
    "import time",
    "from types import SimpleNamespace",
    "from typing import Any, Literal",
    "",
    "from adl_runtime import MessageThread, StatelogClient, get_client",
    ""]),
  .select [(⟨"graph", false⟩, [.text "from adl_runtime import Graph\n"])] [],
  .text "\n_client_config = \x7b\"model\": ", .marker "default_model",
  .text (Text.joinLines [
    "\x7d",
    "_ctx = SimpleNamespace(",
    "    client=get_client(_client_config),",
    "    messages=MessageThread(),",
    ")",
    "_statelog = StatelogClient("]),
  .marker "statelog_host",
  .text (Text.joinLines [
    ")",
    "",
    "",
    "def _get_client_with_config(**overrides):",
    "    _client_config.update(overrides)",
    "    return get_client(_client_config)",
    ""])]

def graphTemplate : Template := [
  .text "graph = Graph(name=", .marker "name", .text ", debug=", .marker "debug",
  .text (Text.joinLines [
    ")",
    "",
    "",
    "def _node_args(state, count):",
    "    data = state.get(\"data\")",
    "    if count == 0:",
    "        return []",
    "    args = list(data) if isinstance(data, (list, tuple)) else [data]",
    "    return (args + [None] * count)[:count]",
    ""])]

def entryTemplate : Template := [
  .text "def run_", .marker "node_name",
  .text (Text.joinLines [
    "(*args, messages=None):",
    "    if messages is not None:",
    "        _ctx.messages = MessageThread(messages)",
    "    state = graph.run("]),
  .marker "node_key",
  .text (Text.joinLines [
    ", \x7b\"messages\": _ctx.messages, \"data\": list(args)\x7d)",
    "    return state.get(\"data\")",
    ""])]

def mainTemplate : Template := [
  .text "if __name__ == \"__main__\":\n",
  .select [
      (⟨"start_step", false⟩, [.text "    graph.run(", .marker "start_step",
        .text ", \x7b\"messages\": _ctx.messages, \"data\": None\x7d)\n"]),
      (⟨"entry_node", false⟩, [.text "    print(run_", .marker "entry_node", .text "())\n"])]
    [.text "    pass\n"]]

/-! ### Sections -/

def globalLine (assigned : Names) : List String :=
  if assigned.list.isEmpty then [] else ["global " ++ commaSeparated assigned.list]

def Section.toText : Section → String
  | .statements body => Text.joinLines (Stmt.listLines body)
  | .functionNode name arity holder =>
    Text.joinLines [
      "@graph.node(" ++ Text.quoteAscii name ++ ")",
      "def _" ++ name ++ "_node(state):",
      "    " ++ holder.toText ++ " = " ++ name ++ "(*_node_args(state, " ++ Nat.repr arity ++ "))",
      "    return " ++ stateWith holder.toText]
  | .entryPoint node =>
    entryTemplate.fill [("node_name", .string node), ("node_key", .string (Text.quoteAscii node))]
  | .step temp assigned body =>
    Text.joinLines (nodeHeader temp.toText ++ block (globalLine assigned ++ Stmt.listLines body))

namespace Module

/-- The names of the steps in program order. -/
def steps (module : Module) : List Temp :=
  module.sections.filterMap fun
    | .step temp .. => some temp
    | _ => none

/-- The nodes that can be run from outside. -/
def entries (module : Module) : List String :=
  module.sections.filterMap fun
    | .entryPoint node => some node
    | _ => none

/-- Each step leads to the next. -/
def edges (module : Module) : List (Temp × Temp) :=
  module.steps.zip module.steps.tail

def preludeText (module : Module) : String :=
  preludeTemplate.fill [
    ("graph", .bool module.graph.isSome),
    ("default_model", .string module.model.compact),
    ("statelog_host", .string module.host.compact)]

def graphText (setup : GraphSetup) : String :=
  graphTemplate.fill [
    ("name", .string (Text.quoteAscii setup.name)),
    ("debug", .string (Json.literal (.bool setup.debug)))]

def edgesText (module : Module) : String :=
  Text.joinLines (module.edges.map fun (start, stop) =>
    "graph.edge(" ++ Text.quoteAscii start.toText ++ ", " ++ Text.quoteAscii stop.toText ++ ")")

/-- Runs the first step, or else the first node that can be run from outside. -/
def mainText (module : Module) : String :=
  let optional (text : Option String) : Json := (text.map Json.string).getD .null
  mainTemplate.fill [
    ("start_step", optional (module.steps.head?.map fun temp => Text.quoteAscii temp.toText)),
    ("entry_node", optional module.entries.head?)]

/-- All sections, the fixed ones included. -/
def texts (module : Module) : List String :=
  let body := module.sections.map Section.toText
  [module.preludeText, Builtin.helperSource module.used] ++
    match module.graph with
    | none => body
    | some setup => graphText setup :: body ++ [module.edgesText, module.mainText]

/-- A text without the line ends at its two ends. -/
def stripLineEnds (text : String) : String :=
  let isEnd (c : Char) : Bool := c == '\n'
  String.ofList ((text.toList.dropWhile isEnd).reverse.dropWhile isEnd).reverse

/-- The sections that are not blank, with two empty lines between them. -/
def toText (module : Module) : String :=
  "\n\n\n".intercalate ((module.texts.filter (!Text.isAllBlank ·)).map stripLineEnds) ++ "\n"

end Module
end AgentLang.Target
