import AgentLang.Json.Literal
import AgentLang.Number.Read
import AgentLang.Syntax.Type

/-!
# Types in the emitted code

A type is written as an annotation, and as the schema of a response that has it. A type of one
number is only meaningful when its text is a number.
-/

namespace AgentLang.Ty

def constantJson : Number.Constant → Json
  | .int value => .int value
  | .float value => .float value

/-- The number of a literal type. -/
def number? (text : String) : Option Json :=
  (Number.Constant.ofText? text).map constantJson

/-- The type as an annotation. -/
def typeCode? : Ty → Option String
  | .named "number" => some "float"
  | .named "string" => some "str"
  | .named "boolean" => some "bool"
  | .named _ => some "Any"
  | .array element => (typeCode? element).map fun inner => "list[" ++ inner ++ "]"
  | .text value => some ("Literal[" ++ Text.quoteAscii value ++ "]")
  | .number digits => (number? digits).map fun value => "Literal[" ++ value.literal ++ "]"
  | .boolean value => some ("Literal[" ++ Json.literal (.bool value) ++ "]")

def schemaOfKind (kind : String) (more : List (String × Json)) : Json :=
  .object (("type", .string kind) :: more)

/-- The schema of a value of the type. -/
def schema? : Ty → Option Json
  | .named "number" => some (schemaOfKind "number" [])
  | .named "boolean" => some (schemaOfKind "boolean" [])
  | .named _ => some (schemaOfKind "string" [])
  | .array element => (schema? element).map fun items => schemaOfKind "array" [("items", items)]
  | .text value => some (schemaOfKind "string" [("enum", .array [.string value])])
  | .number digits =>
    (number? digits).map fun value => schemaOfKind "number" [("enum", .array [value])]
  | .boolean value => some (schemaOfKind "boolean" [("enum", .array [.bool value])])

/-- The schema of a response. Where no type is known it is a plain string. -/
def responseSchema? : Option Ty → Option Json
  | none => some (schemaOfKind "string" [])
  | some type => schema? type

end AgentLang.Ty
