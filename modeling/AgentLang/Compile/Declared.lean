import AgentLang.Names
import AgentLang.Syntax.Node

/-!
# Names that a program declares

Names are collected from a whole program before anything is compiled, so a definition counts also
for the calls before it. The nodes of a program are walked in program order, each before those
inside it.
-/

namespace AgentLang

namespace Node

mutual

/-- The node and those inside it, definitions included or left closed. -/
def walk (intoDefinitions : Bool) : Node → List Node
  | node@(.function _ _ body _ _) =>
    node :: (if intoDefinitions then walkList intoDefinitions body else [])
  | node@(.graphNode _ _ body _ _) =>
    node :: (if intoDefinitions then walkList intoDefinitions body else [])
  | node@(.ifElse _ thenBody elseBody) =>
    node :: walkList intoDefinitions thenBody ++ walkOption intoDefinitions elseBody
  | node@(.loop _ body) => node :: walkList intoDefinitions body
  | node@(.thread _ body) => node :: walkList intoDefinitions body
  | node@(.timed body _) => node :: walkList intoDefinitions body
  | node@(.select _ arms) => node :: walkArms intoDefinitions arms
  | node@(.assign _ _ value) => node :: walk intoDefinitions value
  | node => [node]

def walkList (intoDefinitions : Bool) : List Node → List Node
  | [] => []
  | node :: nodes => walk intoDefinitions node ++ walkList intoDefinitions nodes

def walkOption (intoDefinitions : Bool) : Option (List Node) → List Node
  | none => []
  | some nodes => walkList intoDefinitions nodes

def walkArms (intoDefinitions : Bool) : List Arm → List Node
  | [] => []
  | .comment _ :: arms => walkArms intoDefinitions arms
  | .arm _ body :: arms => walk intoDefinitions body ++ walkArms intoDefinitions arms

end

/-- A line end or a comment. -/
def isTrivia : Node → Bool
  | .newline => true
  | .comment _ => true
  | .blockComment _ => true
  | _ => false

/-- The name that a node assigns by itself. -/
def assigned? : Node → Option String
  | .assign name _ _ => some name
  | .expr (.binary op (.name name) _) => if op.isAssignment then some name else none
  | _ => none

/-- The names that a node assigns outside of the definitions in it. -/
def assignedNames (node : Node) : Names :=
  .ofList ((node.walk false).filterMap assigned?)

end Node

/-- A node of the graph that is not private can be run from outside. -/
def isEntry (visibility : Option Visibility) : Bool :=
  visibility != some .hidden

/-- The definition of a graph node. -/
structure GraphNode where
  name : String
  parameters : List Parameter
  body : List Node
  returns : Option Ty
  visibility : Option Visibility

namespace GraphNode

def isEntry (node : GraphNode) : Bool := AgentLang.isEntry node.visibility

def toNode (node : GraphNode) : Node :=
  .graphNode node.name node.parameters node.body node.returns node.visibility

end GraphNode

namespace Program

/-- The functions of the top level. -/
def functions (program : Program) : List String :=
  program.nodes.filterMap fun
    | .function name .. => some name
    | _ => none

/-- The graph nodes of the top level. -/
def graphNodes (program : Program) : List GraphNode :=
  program.nodes.filterMap fun
    | .graphNode name parameters body returns visibility =>
      some ⟨name, parameters, body, returns, visibility⟩
    | _ => none

/-- The first graph node of a name. -/
def graphNode? (program : Program) (name : String) : Option GraphNode :=
  program.graphNodes.find? (·.name == name)

end Program

structure Declared where
  /-- The functions of all depths. -/
  functions : List String
  /-- The graph nodes of all depths, and those of other modules. -/
  nodes : List String
  /-- What can be offered to a prompt. -/
  tools : List String
  /-- The functions of the top level. -/
  topFunctions : List String

namespace Declared

def functionName? : Node → Option String
  | .function name .. => some name
  | _ => none

def nodeNames : Node → List String
  | .graphNode name .. => [name]
  | .importNodes names _ => names
  | _ => []

def toolNames : Node → List String
  | .importTools names _ => names
  | .importNames .named names _ => names
  | _ => []

def ofProgram (program : Program) : Declared :=
  let walked := Node.walkList true program.nodes
  let functions := walked.filterMap functionName?
  { functions := functions
    nodes := walked.flatMap nodeNames
    tools := functions ++ program.nodes.flatMap toolNames
    topFunctions := program.functions }

end Declared
end AgentLang
