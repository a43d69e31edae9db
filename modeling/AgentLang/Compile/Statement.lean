import AgentLang.Compile.Expr

/-!
# Compiling statements

Every statement of a body comes behind the prompt functions that it needs. Conditions of a chain of
branches and the subject of a selection belong to the statement around them.
-/

namespace AgentLang

/-! ### Modules named by paths -/

/-- Endings of file names that are no part of a module's name. -/
def moduleEndings : List String := [".py", ".adl", ".js", ".ts"]

/-- The path without an ending, which may stand before a last line end. -/
def dropEnding (path : List Char) : List Char :=
  let reversed := path.reverse
  let (lineEnd, rest) := match reversed with
    | '\n' :: rest => (['\n'], rest)
    | rest => ([], rest)
  match moduleEndings.find? fun ending => ending.toList.reverse.isPrefixOf rest with
  | some ending => (lineEnd ++ rest.drop ending.length).reverse
  | none => path

/-- The name of the module at a path. -/
def moduleName (path : String) : String :=
  let relative := match path.toList with
    | '.' :: '/' :: rest => rest
    | rest => rest
  String.ofList ((dropEnding relative).map fun c => if c = '/' then '.' else c)

namespace Compile

open Target (Choice Code Stmt)

/-- A block comment as comment lines. -/
def noteLines (text : String) : List String :=
  let isEnd (c : Char) : Bool := c == '\n'
  let inner := ((text.toList.dropWhile isEnd).reverse.dropWhile isEnd).reverse
  (Text.splitAt '\n' inner).map fun line =>
    String.ofList (Text.stripEnd (['#', ' '] ++ Text.strip line))

/-- Whether the last node that is not trivia leaves the body. -/
def endsInTransfer (nodes : List Node) : Bool :=
  match (nodes.filter (!·.isTrivia)).getLast? with
  | some (.ret _) => true
  | some (.goto ..) => true
  | _ => false

/-- Whether assignments may carry annotations. A step of the graph declares its names as global,
which annotations do not go with. -/
def annotationsAllowed (setting : Setting) : Build Bool := do
  return !(setting.backend.usesGraph && (← Build.scope) == .step)

/-- The annotation of a name, where annotations are allowed. -/
def allowedTypeCode (setting : Setting) (hint : Option Ty) : Build (Option String) := do
  match hint with
  | none => return none
  | some type => if ← annotationsAllowed setting then some <$> Build.typeCode type else return none

def parameterCode (parameter : Parameter) : Build Code :=
  return .parameter parameter.name (← Build.typeCode? parameter.hint)

def parameterList (parameters : List Parameter) : Build (List (String × Option String)) :=
  parameters.mapM fun parameter => return (parameter.name, ← Build.typeCode? parameter.hint)

def useTools (setting : Setting) (tools : List String) : Build Unit :=
  tools.forM fun tool =>
    if tool ∈ setting.declared.tools then Build.offerTool tool else Build.fail (.unknownTool tool)

def gotoStmt (setting : Setting) (target : String) (arguments : List Code) : Build Stmt := do
  match setting.backend, ← Build.scope with
  | .script, .module => return .call target arguments
  | .script, _ => return .retCall target arguments
  | .graph, .module => return .runGraph target arguments
  | .graph, .function => return .goTo false target arguments
  | .graph, _ => return .goTo true target arguments

def retStmt (setting : Setting) (value : Option Code) : Build Stmt := do
  match setting.backend, ← Build.scope with
  | _, .module => return .discard value
  | .graph, .node => return .retData value
  | .graph, .step => return .retData value
  | _, _ => return .ret value

/-- A value that is returned has the type that its scope returns. -/
def returned (setting : Setting) : Option Expr → Build (Option Code)
  | none => return none
  | some value => do
    let type := (← get).context.returnType
    some <$> Build.expecting type (expr setting value)

def specialStmt (setting : Setting) (name : String) (value : Expr) : Build Stmt := do
  if name = "model" then
    return .setModel (← expr setting value)
  else if name = "messages" then
    return .setMessages (← expr setting value)
  else
    Build.fail (.unknownSpecial name)

def importStmt (kind : ImportKind) (names : List String) (path : String) : Build Stmt := do
  match kind, names with
  | .named, _ => return .importNames (moduleName path) names
  | _, [] => Build.fail .noImportedName
  | _, shortName :: _ => return .importModule (moduleName path) shortName

def importNodesStmt (setting : Setting) (names : List String) (path : String) : Stmt :=
  match setting.backend with
  | .script => .importNames (moduleName path) names
  | .graph => .importGraph (moduleName path) names

mutual

/-- One node, without what has to come ahead of it. -/
def node (setting : Setting) : Node → Build (List Stmt)
  | .expr value => return [.expr (← expr setting value)]
  | .parameter parameter => return [.expr (← parameterCode parameter)]
  | .function name parameters inner returns doc => do
    let shown ← parameterList parameters
    let result ← Build.typeCode? returns
    Build.storeParameterHints parameters
    let stmts ← Build.inDefinition .function returns (body setting false inner)
    return [.define name shown result doc stmts]
  | .graphNode name parameters inner returns _ =>
    match setting.backend with
    | .script => do
      let shown ← parameterList parameters
      let result ← Build.typeCode? returns
      let stmts ← Build.inDefinition .node returns (body setting false inner)
      return [.define name shown result none stmts]
    | .graph => do
      Build.storeParameterHints parameters
      let stmts ← Build.inDefinition .node returns (body setting false inner)
      let unpacking := if parameters.isEmpty then [] else [Stmt.unpack (parameters.map (·.name))]
      let closing := if endsInTransfer inner then [] else [Stmt.retState]
      return [.defineNode name (unpacking ++ stmts ++ closing)]
  | .goto target arguments => do
    let arguments ← exprs setting arguments
    return [← gotoStmt setting target arguments]
  | .uses tools => do
    useTools setting tools
    return []
  | .assign name _ (.thread kind inner) => do
    let saved ← Build.fresh .savedMessages
    return [.thread saved kind (← body setting false inner) (some name)]
  | .assign name _ (.timed inner prints) => do
    let index ← Build.nextIndex
    return [.timed index (← body setting false inner) prints (some name)]
  | .assign name hint (.expr value) => do
    Build.storeHint? name hint
    let code ← Build.expecting (← Build.hintOf name) (expr setting value)
    return [.assign name (← allowedTypeCode setting hint) code]
  | .assign name hint (.parameter parameter) => do
    Build.storeHint? name hint
    let code ← parameterCode parameter
    return [.assign name (← allowedTypeCode setting hint) code]
  | .assign name hint value => do
    Build.storeHint? name hint
    let _ ← Build.expecting (← Build.hintOf name) (node setting value)
    Build.fail (.unsupported (value.tag ++ " used as a value") setting.backend)
  | .ret value => do
    let value ← returned setting value
    return [← retStmt setting value]
  | .hint name type => do
    Build.storeHint name type
    if ← annotationsAllowed setting then
      return [.annotate name (← Build.typeCode type)]
    else
      return []
  | .ifElse condition thenBody elseBody => do
    let condition ← expr setting condition
    let stmts ← body setting false thenBody
    let (branches, otherwise) ← elseBranches setting elseBody
    return [.ifChain ((condition, stmts) :: branches) otherwise]
  | .loop condition inner => do
    let condition ← expr setting condition
    return [.loop condition (← body setting false inner)]
  | .select subject arms => do
    let temp ← Build.fresh .subject
    let value ← expr setting subject
    let (choices, otherwise) ← choices setting arms
    return [.select temp value choices otherwise]
  | .thread kind inner => do
    let saved ← Build.fresh .savedMessages
    return [.thread saved kind (← body setting false inner) none]
  | .special name value => return [← specialStmt setting name value]
  | .timed inner prints => do
    let index ← Build.nextIndex
    return [.timed index (← body setting false inner) prints none]
  | .importNames kind names path => return [← importStmt kind names path]
  | .importNodes names path => return [importNodesStmt setting names path]
  | .importTools names path => return [.importNames (moduleName path) names]
  | .comment text => return [.note ("#" ++ text)]
  | .blockComment text => return (noteLines text).map .note
  | .newline => return []

/-- The nodes of a body. Line ends only leave a trace where they follow each other. -/
def body (setting : Setting) (afterLineEnd : Bool) : List Node → Build (List Stmt)
  | [] => return []
  | .newline :: rest => do
    let stmts ← body setting true rest
    return (if afterLineEnd then .blank :: stmts else stmts)
  | first :: rest => do
    let (hoisted, stmts) ← Build.collecting (node setting first)
    return hoisted ++ stmts ++ (← body setting false rest)

/-- The branches behind the first one. A single branching in the last place continues the chain. -/
def elseBranches (setting : Setting) :
    Option (List Node) → Build (List (Code × List Stmt) × Option (List Stmt))
  | none => return ([], none)
  | some [.ifElse condition thenBody elseBody] => do
    let condition ← expr setting condition
    let stmts ← body setting false thenBody
    let (branches, otherwise) ← elseBranches setting elseBody
    return ((condition, stmts) :: branches, otherwise)
  | some nodes => return ([], some (← body setting false nodes))

/-- The arms up to the one that takes what is left. The body of an arm is a single node. -/
def choices (setting : Setting) : List Arm → Build (List Choice × Option (List Stmt))
  | [] => return ([], none)
  | .comment text :: rest => do
    let (others, otherwise) ← choices setting rest
    return (.note ("#" ++ text) :: others, otherwise)
  | .arm none inner :: _ => do
    let (hoisted, stmts) ← Build.collecting (node setting inner)
    return ([], some (hoisted ++ stmts))
  | .arm (some value) inner :: rest => do
    let value ← expr setting value
    let (hoisted, stmts) ← Build.collecting (node setting inner)
    let (others, otherwise) ← choices setting rest
    return (.case value (hoisted ++ stmts) :: others, otherwise)

end

end Compile
end AgentLang
