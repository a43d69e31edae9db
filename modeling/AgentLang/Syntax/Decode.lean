import AgentLang.Json.Checked
import AgentLang.Syntax.Node

/-!
# Programs from documents

Reading checks everything that distinguishes a well-formed program: which kinds of expression may
stand where, that chains and lists of tools are not empty, and that every word is one of those
allowed. Fields that are not known are passed over and absent ones take their defaults.
-/

namespace AgentLang.Decode

open Json (Key Checked Reader)
open Json.Reader

/-! ### Which kinds may stand where -/

def literalKinds : List String :=
  ["number", "string", "multiLineString", "boolean", "variableName", "prompt"]

def baseKinds : List String := ["variableName", "functionCall"]

def argumentKinds : List String := literalKinds ++ ["accessExpression", "functionCall"]

def operandKinds : List String := argumentKinds ++ ["adlObject", "adlArray"]

def conditionKinds : List String := argumentKinds ++ ["binOpExpression"]

def expressionKinds : List String := operandKinds ++ ["binOpExpression"]

def statementKinds : List String :=
  ["functionParameter", "function", "graphNode", "nodeCall", "usesTool", "assignment",
    "returnStatement", "typeHint", "ifElse", "whileLoop", "matchBlock", "messageThread",
    "specialVar", "timeBlock", "importStatement", "importNodeStatement", "importToolStatement",
    "comment", "multiLineComment", "newLine"]

def nodeKinds : List String := expressionKinds ++ statementKinds

def armKinds : List String := ["matchBlockCase", "comment"]

def typeKinds : List String :=
  ["primitiveType", "arrayType", "stringLiteralType", "numberLiteralType", "booleanLiteralType"]

def segmentKinds : List String := ["text", "interpolation"]

def stepKinds : List String := ["property", "index", "methodCall"]

/-- Reads the fields of an object whose kind is known. -/
abbrev Member (α : Type) := (kind : String) → List Key → Fields → Checked α

/-- An object that can only be of one kind. -/
def only {α : Type} (kind : String) (read : Member α) : Reader α :=
  model fun location fields =>
    (fun _ value => value) <$> constant "type" kind location fields <*> read kind location fields

/-! ### Types and segments -/

def typeMember : (fuel : Nat) → Member Ty
  | 0 => fun _ _ _ => .refused []
  | fuel + 1 => fun kind location fields =>
    match kind with
    | "primitiveType" => Ty.named <$> required "value" text location fields
    | "arrayType" =>
      Ty.array <$>
        required "element_type" (union "type" typeKinds (typeMember fuel)) location fields
    | "stringLiteralType" => Ty.text <$> required "value" text location fields
    | "numberLiteralType" => Ty.number <$> required "value" text location fields
    | _ => Ty.boolean <$> required "value" flag location fields

def type (fuel : Nat) : Reader Ty :=
  union "type" typeKinds (typeMember fuel)

def segmentMember : Member Segment := fun kind location fields =>
  match kind with
  | "text" => Segment.text <$> required "value" text location fields
  | _ => Segment.interpolation <$> required "variable_name" text location fields

def segments : List Key → Fields → Checked (List Segment) :=
  defaulted "segments" [] (listOf (union "type" segmentKinds segmentMember))

/-! ### Expressions -/

def entryMember (expression : Reader Expr) (location : List Key) (fields : Fields) :
    Checked (String × Expr) :=
  Prod.mk <$> required "key" text location fields <*> required "value" expression location fields

def entries (expression : Reader Expr) : List Key → Fields → Checked (List (String × Expr)) :=
  defaulted "entries" [] (listOf (model (entryMember expression)))

def callMember (argument : Reader Expr) (location : List Key) (fields : Fields) :
    Checked (String × List Expr) :=
  Prod.mk <$> required "function_name" text location fields
    <*> defaulted "arguments" [] (listOf argument) location fields

def stepMember (expression argument : Reader Expr) : Member Step := fun kind location fields =>
  match kind with
  | "property" => Step.property <$> required "name" text location fields
  | "index" => Step.index <$> required "index" expression location fields
  | _ => (fun call => Step.method call.1 call.2) <$>
      required "call" (only "functionCall" fun _ => callMember argument) location fields

def operator : Reader BinaryOp :=
  wordOf BinaryOp.ofText? .operator

def exprMember : (fuel : Nat) → Member Expr
  | 0 => fun _ _ _ => .refused []
  | fuel + 1 => fun kind location fields =>
    let among (kinds : List String) : Reader Expr := union "type" kinds (exprMember fuel)
    match kind with
    | "number" => Expr.number <$> required "value" text location fields
    | "string" => Expr.string <$> segments location fields
    | "multiLineString" => Expr.multiline <$> segments location fields
    | "boolean" => Expr.boolean <$> required "value" flag location fields
    | "variableName" => Expr.name <$> required "value" text location fields
    | "prompt" =>
      Expr.prompt <$> segments location fields
        <*> defaulted "config" none (nullable (only "adlObject" fun _ =>
            entries (among expressionKinds))) location fields
    | "accessExpression" =>
      Expr.access <$> required "base" (among baseKinds) location fields
        <*> required "chain" (nonemptyOf (union "kind" stepKinds
            (stepMember (among expressionKinds) (among argumentKinds)))) location fields
    | "adlArray" =>
      Expr.array <$> defaulted "items" [] (listOf (among expressionKinds)) location fields
    | "adlObject" => Expr.object <$> entries (among expressionKinds) location fields
    | "functionCall" =>
      (fun call => Expr.call call.1 call.2) <$> callMember (among argumentKinds) location fields
    | _ =>
      Expr.binary <$> required "operator" operator location fields
        <*> required "left" (among operandKinds) location fields
        <*> required "right" (among operandKinds) location fields

def expr (kinds : List String) (fuel : Nat) : Reader Expr :=
  union "type" kinds (exprMember fuel)

/-! ### Statements and definitions -/

def hintField (name : String) (fuel : Nat) : List Key → Fields → Checked (Option Ty) :=
  defaulted name none (nullable (type fuel))

def parameterMember (fuel : Nat) (location : List Key) (fields : Fields) : Checked Parameter :=
  Parameter.mk <$> required "name" text location fields
    <*> hintField "type_hint" fuel location fields

def parameters (fuel : Nat) : List Key → Fields → Checked (List Parameter) :=
  defaulted "parameters" [] (listOf (only "functionParameter" fun _ => parameterMember fuel))

def docMember (location : List Key) (fields : Fields) : Checked String :=
  required "value" text location fields

def armMember (fuel : Nat) (node : Reader Node) : Member Arm := fun kind location fields =>
  match kind with
  | "matchBlockCase" =>
    Arm.arm <$> defaulted "case_value" none (nullable (expr expressionKinds fuel)) location fields
      <*> required "body" node location fields
  | _ => Arm.comment <$> required "content" text location fields

def nodeMember : (fuel : Nat) → Member Node
  | 0 => fun _ _ _ => .refused []
  | fuel + 1 => fun kind location fields =>
    let node : Reader Node := union "type" nodeKinds (nodeMember fuel)
    let body (name : String) : Checked (List Node) :=
      defaulted name [] (listOf node) location fields
    match kind with
    | "functionParameter" => Node.parameter <$> parameterMember fuel location fields
    | "function" =>
      Node.function <$> required "function_name" text location fields
        <*> parameters fuel location fields <*> body "body"
        <*> hintField "return_type" fuel location fields
        <*> defaulted "doc_string" none (nullable (only "docString" fun _ => docMember)) location
          fields
    | "graphNode" =>
      Node.graphNode <$> required "node_name" text location fields
        <*> parameters fuel location fields <*> body "body"
        <*> hintField "return_type" fuel location fields
        <*> defaulted "visibility" none (nullable (wordOf Visibility.ofText? .literal)) location
          fields
    | "nodeCall" =>
      Node.goto <$> required "node_name" text location fields
        <*> defaulted "arguments" [] (listOf (expr argumentKinds fuel)) location fields
    | "usesTool" => Node.uses <$> required "tool_names" (nonemptyOf text) location fields
    | "assignment" =>
      Node.assign <$> required "variable_name" text location fields
        <*> hintField "type_hint" fuel location fields
        <*> required "value" node location fields
    | "returnStatement" =>
      Node.ret <$> defaulted "value" none (nullable (expr expressionKinds fuel)) location fields
    | "typeHint" =>
      Node.hint <$> required "variable_name" text location fields
        <*> required "variable_type" (type fuel) location fields
    | "ifElse" =>
      Node.ifElse <$> required "condition" (expr conditionKinds fuel) location fields
        <*> body "then_body"
        <*> defaulted "else_body" none (nullable (listOf node)) location fields
    | "whileLoop" =>
      Node.loop <$> required "condition" (expr conditionKinds fuel) location fields <*> body "body"
    | "matchBlock" =>
      Node.select <$> required "expression" (expr expressionKinds fuel) location fields
        <*> defaulted "cases" [] (listOf (union "type" armKinds (armMember fuel node))) location
          fields
    | "messageThread" =>
      Node.thread
        <$> defaulted "thread_type" .fresh (wordOf ThreadKind.ofText? .literal) location fields
        <*> body "body"
    | "specialVar" =>
      Node.special <$> required "name" text location fields
        <*> required "value" (expr expressionKinds fuel) location fields
    | "timeBlock" =>
      Node.timed <$> body "body" <*> defaulted "print_time" false flag location fields
    | "importStatement" =>
      Node.importNames
        <$> required "import_kind" (wordOf ImportKind.ofText? .literal) location fields
        <*> required "imported_names" (listOf text) location fields
        <*> required "module_path" text location fields
    | "importNodeStatement" =>
      Node.importNodes <$> required "imported_nodes" (listOf text) location fields
        <*> required "adl_file" text location fields
    | "importToolStatement" =>
      Node.importTools <$> required "imported_tools" (listOf text) location fields
        <*> required "adl_file" text location fields
    | "comment" => Node.comment <$> required "content" text location fields
    | "multiLineComment" => Node.blockComment <$> required "content" text location fields
    | "newLine" => .valid .newline
    | kind => Node.expr <$> exprMember fuel kind location fields

def node (fuel : Nat) : Reader Node :=
  union "type" nodeKinds (nodeMember fuel)

def program (fuel : Nat) : Reader Program :=
  only "adlProgram" fun _ location fields =>
    Program.mk <$> defaulted "nodes" [] (listOf (node fuel)) location fields

end AgentLang.Decode

namespace AgentLang

/-- Enough fuel to read a document. -/
def Json.readingFuel (json : Json) : Nat := json.depth + 1

/-- The type that a document describes. -/
def Ty.ofJson (json : Json) : Json.Checked Ty :=
  Decode.type json.readingFuel [] json

/-- The segments that a document describes. -/
def Segment.listOfJson (json : Json) : Json.Checked (List Segment) :=
  Json.Reader.listOf (Json.Reader.union "type" Decode.segmentKinds Decode.segmentMember) [] json

/-- The program that a document describes. -/
def Program.ofJson (json : Json) : Json.Checked Program :=
  Decode.program json.readingFuel [] json

end AgentLang
