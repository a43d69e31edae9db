import AgentLang.Syntax.Node
import AgentLang.Target.Layout
import AgentLang.Target.Prompt

/-!
# Statements of the emitted code

Statements keep the structure of what is emitted; lines are made of them in one place.
-/

namespace AgentLang.Target

mutual

inductive Stmt where
  | blank
  /-- A comment, with its mark. -/
  | note (line : String)
  | prompt (function : PromptFunction)
  | expr (value : Code)
  | assign (name : String) (typeCode : Option String) (value : Code)
  | annotate (name : String) (typeCode : String)
  /-- Binds a temporary name. -/
  | hold (temp : Temp) (value : Code)
  | setModel (value : Code)
  | setMessages (value : Code)
  | importNames (module : String) (names : List String)
  | importModule (module : String) (shortName : String)
  /-- Takes nodes over from the graph of another module. -/
  | importGraph (module : String) (names : List String)
  /-- Evaluates a value that is returned where there is nothing to return from. -/
  | discard (value : Option Code)
  | ret (value : Option Code)
  /-- Returns the state of the graph. -/
  | retState
  /-- Returns the state of the graph with new data. -/
  | retData (value : Option Code)
  | retHeld (temp : Temp)
  | call (function : String) (arguments : List Code)
  | retCall (function : String) (arguments : List Code)
  /-- Passes control to a node. The state of the caller is handed on, or a new one is made. -/
  | goTo (handOn : Bool) (node : String) (arguments : List Code)
  /-- Runs the graph from a node. -/
  | runGraph (node : String) (arguments : List Code)
  /-- Takes the parameters of a node out of the state. -/
  | unpack (names : List String)
  | define (name : String) (parameters : List (String × Option String)) (returns : Option String)
      (doc : Option String) (body : List Stmt)
  /-- A function that is registered as a node of the graph. -/
  | defineNode (name : String) (body : List Stmt)
  | ifChain (branches : List (Code × List Stmt)) (otherwise : Option (List Stmt))
  | loop (condition : Code) (body : List Stmt)
  | select (subject : Temp) (value : Code) (arms : List Choice) (otherwise : Option (List Stmt))
  | thread (saved : Temp) (kind : ThreadKind) (body : List Stmt) (binding : Option String)
  | timed (index : Nat) (body : List Stmt) (prints : Bool) (binding : Option String)

/-- An arm of a selection, or a comment between arms. -/
inductive Choice where
  | case (value : Code) (body : List Stmt)
  | note (line : String)

end

/-- The text of a value, where an empty text counts as no value. -/
def valueText? (value : Option Code) : Option String :=
  (value.map Code.toText).filter (!·.isEmpty)

/-- The name that a value is bound to, where an empty name counts as none. -/
def bindingName? (binding : Option String) : Option String :=
  binding.filter (!·.isEmpty)

/-- The state of the graph with new data. -/
def stateWith (data : String) : String := "\x7b**state, \"data\": " ++ data ++ "\x7d"

/-- A new state of the graph. -/
def newState (data : String) : String :=
  "\x7b\"messages\": _ctx.messages, \"data\": " ++ data ++ "\x7d"

def bracketed (codes : List Code) : String := "[" ++ commaSeparated (Code.texts codes) ++ "]"

def callText (function : String) (arguments : List Code) : String :=
  function ++ "(" ++ commaSeparated (Code.texts arguments) ++ ")"

def nodeHeader (name : String) : List String :=
  ["@graph.node(" ++ Text.quoteAscii name ++ ")", "def " ++ name ++ "(state):"]

def defineHeader (name : String) (parameters : List (String × Option String))
    (returns : Option String) : String :=
  let shown := parameters.map fun (name, type) => parameterText name type
  "def " ++ name ++ "(" ++ commaSeparated shown ++ ")" ++ (returns.map (" -> " ++ ·)).getD "" ++ ":"

/-- The history of messages that a thread starts with. -/
def threadText (saved : Temp) : ThreadKind → String
  | .fresh => "MessageThread()"
  | .child => saved.toText ++ ".subthread()"
  | .branch => saved.toText ++ ".parallel()"

/-- The name under which the graph of another module is known. -/
def graphAlias (module : String) : String :=
  "_" ++ module.map (fun c => if c = '.' then '_' else c) ++ "_graph"

def Choice.isCase : Choice → Bool
  | .case .. => true
  | .note _ => false

mutual

def Stmt.lines : Stmt → List String
  | .blank => [""]
  | .note line => [line]
  | .prompt function => function.lines
  | .expr value => [value.toText]
  | .assign name typeCode value => [parameterText name typeCode ++ " = " ++ value.toText]
  | .annotate name typeCode => [parameterText name (some typeCode)]
  | .hold temp value => [temp.toText ++ " = " ++ value.toText]
  | .setModel value => ["_ctx.client = _get_client_with_config(model=" ++ value.toText ++ ")"]
  | .setMessages value => ["_ctx.messages = MessageThread(" ++ value.toText ++ ")"]
  | .importNames module names => ["from " ++ module ++ " import " ++ commaSeparated names]
  | .importModule module shortName =>
    ["import " ++ module ++ (if shortName = module then "" else " as " ++ shortName)]
  | .importGraph module names =>
    ["from " ++ module ++ " import graph as " ++ graphAlias module,
      "graph.merge(" ++ graphAlias module ++ ", [" ++ commaSeparated (names.map Text.quoteAscii)
        ++ "])"]
  | .discard value => (valueText? value).toList
  | .ret value => ["return" ++ ((valueText? value).map (" " ++ ·)).getD ""]
  | .retState => ["return state"]
  | .retData value => ["return " ++ stateWith ((valueText? value).getD "None")]
  | .retHeld temp => ["return " ++ stateWith temp.toText]
  | .call function arguments => [callText function arguments]
  | .retCall function arguments => ["return " ++ callText function arguments]
  | .goTo handOn node arguments =>
    ["return graph.go_to(" ++ Text.quoteAscii node ++ ", "
      ++ (if handOn then stateWith else newState) (bracketed arguments) ++ ")"]
  | .runGraph node arguments =>
    ["graph.run(" ++ Text.quoteAscii node ++ ", " ++ newState (bracketed arguments) ++ ")"]
  | .unpack names =>
    ["[" ++ commaSeparated names ++ "] = _node_args(state, " ++ Nat.repr names.length ++ ")"]
  | .define name parameters returns doc body =>
    defineHeader name parameters returns :: block (docLines doc ++ Stmt.listLines body)
  | .defineNode name body => nodeHeader name ++ block (Stmt.listLines body)
  | .ifChain branches otherwise =>
    Stmt.branchLines "if" branches ++ Stmt.otherwiseLines otherwise
  | .loop condition body =>
    ("while " ++ condition.toText ++ ":") :: block (Stmt.listLines body)
  | .select subject value arms otherwise =>
    let guarded := arms.any Choice.isCase
    (subject.toText ++ " = " ++ value.toText) :: Stmt.choiceLines subject "if" arms
      ++ (if guarded then Stmt.otherwiseLines otherwise else Stmt.openLines otherwise)
  | .thread saved kind body binding =>
    let bound := (bindingName? binding).toList.map (· ++ " = _ctx.messages.new_messages()")
    [saved.toText ++ " = _ctx.messages",
      "_ctx.messages = " ++ threadText saved kind,
      "try:"]
      ++ block (Stmt.listLines body ++ bound)
      ++ ["finally:", "    _ctx.messages = " ++ saved.toText]
  | .timed index body prints binding =>
    let start := (Temp.mk .timeStart index).toText
    let stop := (Temp.mk .timeEnd index).toText
    let elapsed := stop ++ " - " ++ start
    [start ++ " = time.perf_counter()"] ++ Stmt.listLines body
      ++ [stop ++ " = time.perf_counter()"]
      ++ (if prints then ["print(f\"Time taken: \x7b" ++ elapsed ++ ":.3f\x7ds\")"] else [])
      ++ (bindingName? binding).toList.map (· ++ " = " ++ elapsed)

def Stmt.listLines : List Stmt → List String
  | [] => []
  | stmt :: stmts => stmt.lines ++ Stmt.listLines stmts

/-- Conditions with their bodies. The word before the first condition is given. -/
def Stmt.branchLines (word : String) : List (Code × List Stmt) → List String
  | [] => []
  | (condition, body) :: branches =>
    (word ++ " " ++ condition.toText ++ ":") :: block (Stmt.listLines body)
      ++ Stmt.branchLines "elif" branches

def Stmt.otherwiseLines : Option (List Stmt) → List String
  | none => []
  | some body => "else:" :: block (Stmt.listLines body)

/-- What is left over where there is nothing to test before it. -/
def Stmt.openLines : Option (List Stmt) → List String
  | none => []
  | some body => Stmt.listLines body

/-- Arms of a selection. The word before the first test is given. -/
def Stmt.choiceLines (subject : Temp) (word : String) : List Choice → List String
  | [] => []
  | .note line :: arms => line :: Stmt.choiceLines subject word arms
  | .case value body :: arms =>
    (word ++ " " ++ subject.toText ++ " == " ++ value.toText ++ ":") :: block (Stmt.listLines body)
      ++ Stmt.choiceLines subject "elif" arms

end

end AgentLang.Target
