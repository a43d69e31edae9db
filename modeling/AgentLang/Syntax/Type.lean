/-!
# Types

The types that annotate variables, parameters and results.
-/

namespace AgentLang

inductive Ty where
  /-- A type known by its name. -/
  | named (name : String)
  | array (element : Ty)
  /-- The type of one text. -/
  | text (value : String)
  /-- The type of one number, kept as it was written. -/
  | number (value : String)
  | boolean (value : Bool)
  deriving DecidableEq, Repr

namespace Ty

/-- The type as it is written. -/
def toText : Ty → String
  | .named name => name
  | .array element => element.toText ++ "[]"
  | .text value => "\"" ++ value ++ "\""
  | .number value => value
  | .boolean value => if value then "true" else "false"

end Ty
end AgentLang
