import AgentLang.Json.Value
import AgentLang.Syntax.Node

/-!
# Programs as documents

Every node is an object whose field `type` names its kind. All fields are written, in a fixed order,
also those that hold nothing.
-/

namespace AgentLang

namespace Json

def ofOption {α : Type} (encode : α → Json) : Option α → Json
  | none => .null
  | some value => encode value

def ofStrings (texts : List String) : Json :=
  .array (texts.map .string)

/-- An object of a kind. -/
def tagged (kind : String) (fields : List (String × Json)) : Json :=
  .object (("type", .string kind) :: fields)

end Json

open Json (ofOption ofStrings tagged)

def Ty.toJson : Ty → Json
  | .named name => tagged "primitiveType" [("value", .string name)]
  | .array element => tagged "arrayType" [("element_type", element.toJson)]
  | .text value => tagged "stringLiteralType" [("value", .string value)]
  | .number value => tagged "numberLiteralType" [("value", .string value)]
  | .boolean value => tagged "booleanLiteralType" [("value", .bool value)]

def Segment.toJson : Segment → Json
  | .text value => tagged "text" [("value", .string value)]
  | .interpolation name => tagged "interpolation" [("variable_name", .string name)]

def Segment.listJson (segments : List Segment) : Json :=
  .array (segments.map toJson)

mutual

def Expr.toJson : Expr → Json
  | .number text => tagged "number" [("value", .string text)]
  | .string segments => tagged "string" [("segments", Segment.listJson segments)]
  | .multiline segments => tagged "multiLineString" [("segments", Segment.listJson segments)]
  | .boolean value => tagged "boolean" [("value", .bool value)]
  | .name name => tagged "variableName" [("value", .string name)]
  | .prompt segments none =>
    tagged "prompt" [("segments", Segment.listJson segments), ("config", .null)]
  | .prompt segments (some entries) =>
    tagged "prompt" [("segments", Segment.listJson segments),
      ("config", tagged "adlObject" [("entries", .array (Expr.entriesJson entries))])]
  | .access base chain =>
    tagged "accessExpression" [("base", base.toJson), ("chain", .array (Expr.chainJson chain))]
  | .array items => tagged "adlArray" [("items", .array (Expr.itemsJson items))]
  | .object entries => tagged "adlObject" [("entries", .array (Expr.entriesJson entries))]
  | .call function arguments =>
    tagged "functionCall" [("function_name", .string function),
      ("arguments", .array (Expr.itemsJson arguments))]
  | .binary op left right =>
    tagged "binOpExpression" [("operator", .string op.toText), ("left", left.toJson),
      ("right", right.toJson)]

def Expr.itemsJson : List Expr → List Json
  | [] => []
  | item :: items => item.toJson :: Expr.itemsJson items

def Expr.entriesJson : List (String × Expr) → List Json
  | [] => []
  | (key, value) :: entries =>
    .object [("key", .string key), ("value", value.toJson)] :: Expr.entriesJson entries

def Step.toJson : Step → Json
  | .property name => .object [("kind", .string "property"), ("name", .string name)]
  | .index index => .object [("kind", .string "index"), ("index", index.toJson)]
  | .method function arguments =>
    .object [("kind", .string "methodCall"),
      ("call", tagged "functionCall" [("function_name", .string function),
        ("arguments", .array (Expr.itemsJson arguments))])]

def Expr.chainJson : List Step → List Json
  | [] => []
  | step :: steps => step.toJson :: Expr.chainJson steps

end

def Parameter.toJson (p : Parameter) : Json :=
  tagged "functionParameter" [("name", .string p.name), ("type_hint", ofOption Ty.toJson p.hint)]

def docJson (text : String) : Json :=
  tagged "docString" [("value", .string text)]

mutual

def Node.toJson : Node → Json
  | .expr value => value.toJson
  | .parameter p => p.toJson
  | .function name parameters body returns doc =>
    tagged "function" [("function_name", .string name),
      ("parameters", .array (parameters.map Parameter.toJson)),
      ("body", .array (Node.listJson body)),
      ("return_type", ofOption Ty.toJson returns), ("doc_string", ofOption docJson doc)]
  | .graphNode name parameters body returns visibility =>
    tagged "graphNode" [("node_name", .string name),
      ("parameters", .array (parameters.map Parameter.toJson)),
      ("body", .array (Node.listJson body)),
      ("return_type", ofOption Ty.toJson returns),
      ("visibility", ofOption (fun v => .string v.toText) visibility)]
  | .goto target arguments =>
    tagged "nodeCall" [("node_name", .string target),
      ("arguments", .array (Expr.itemsJson arguments))]
  | .uses tools => tagged "usesTool" [("tool_names", ofStrings tools)]
  | .assign name hint value =>
    tagged "assignment" [("variable_name", .string name), ("type_hint", ofOption Ty.toJson hint),
      ("value", value.toJson)]
  | .ret value => tagged "returnStatement" [("value", ofOption Expr.toJson value)]
  | .hint name type =>
    tagged "typeHint" [("variable_name", .string name), ("variable_type", type.toJson)]
  | .ifElse condition thenBody none =>
    tagged "ifElse" [("condition", condition.toJson),
      ("then_body", .array (Node.listJson thenBody)),
      ("else_body", .null)]
  | .ifElse condition thenBody (some elseBody) =>
    tagged "ifElse" [("condition", condition.toJson),
      ("then_body", .array (Node.listJson thenBody)),
      ("else_body", .array (Node.listJson elseBody))]
  | .loop condition body =>
    tagged "whileLoop" [("condition", condition.toJson), ("body", .array (Node.listJson body))]
  | .select subject arms =>
    tagged "matchBlock" [("expression", subject.toJson), ("cases", .array (Node.armsJson arms))]
  | .thread kind body =>
    tagged "messageThread" [("thread_type", .string kind.toText),
      ("body", .array (Node.listJson body))]
  | .special name value =>
    tagged "specialVar" [("name", .string name), ("value", value.toJson)]
  | .timed body prints =>
    tagged "timeBlock" [("body", .array (Node.listJson body)), ("print_time", .bool prints)]
  | .importNames kind names path =>
    tagged "importStatement" [("import_kind", .string kind.toText),
      ("imported_names", ofStrings names), ("module_path", .string path)]
  | .importNodes names path =>
    tagged "importNodeStatement" [("imported_nodes", ofStrings names), ("adl_file", .string path)]
  | .importTools names path =>
    tagged "importToolStatement" [("imported_tools", ofStrings names), ("adl_file", .string path)]
  | .comment text => tagged "comment" [("content", .string text)]
  | .blockComment text => tagged "multiLineComment" [("content", .string text)]
  | .newline => tagged "newLine" []

def Node.listJson : List Node → List Json
  | [] => []
  | node :: nodes => node.toJson :: Node.listJson nodes

def Arm.toJson : Arm → Json
  | .arm value body =>
    tagged "matchBlockCase" [("case_value", ofOption Expr.toJson value), ("body", body.toJson)]
  | .comment text => tagged "comment" [("content", .string text)]

def Node.armsJson : List Arm → List Json
  | [] => []
  | arm :: arms => arm.toJson :: Node.armsJson arms

end

def Program.toJson (program : Program) : Json :=
  tagged "adlProgram" [("nodes", .array (Node.listJson program.nodes))]

end AgentLang
