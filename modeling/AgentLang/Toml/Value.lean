import AgentLang.Json.Literal
import AgentLang.Number.Read
import AgentLang.Toml.Moment

/-!
# Values of configuration files

Like documents of other kinds, and with dates and times besides.
-/

namespace AgentLang

inductive Toml where
  | string (value : String)
  | int (value : Int)
  | float (value : Number.Binary64)
  | bool (value : Bool)
  | moment (value : Moment)
  | array (items : List Toml)
  | table (entries : List (String × Toml))
  deriving Inhabited

namespace Toml

mutual

/-- The value as a document. What comes first in it decides why there is none. -/
def toJson : Toml → Except Json.Unwritable Json
  | .string value => .ok (.string value)
  | .int value => if Number.isLong value then .error .digits else .ok (.int value)
  | .float value => .ok (.float value)
  | .bool value => .ok (.bool value)
  | .moment _ => .error .foreign
  | .array items => (itemsJson items).map .array
  | .table entries => (entriesJson entries).map .object

def itemsJson : List Toml → Except Json.Unwritable (List Json)
  | [] => .ok []
  | item :: items => do
    let item ← item.toJson
    return item :: (← itemsJson items)

def entriesJson : List (String × Toml) → Except Json.Unwritable (List (String × Json))
  | [] => .ok []
  | (key, value) :: entries => do
    let value ← value.toJson
    return (key, value) :: (← entriesJson entries)

end

mutual

/-- Whether a whole number in it has too many digits to be written. -/
def hasLong : Toml → Bool
  | .int value => Number.isLong value
  | .array items => hasLongItems items
  | .table entries => hasLongEntries entries
  | _ => false

def hasLongItems : List Toml → Bool
  | [] => false
  | item :: items => item.hasLong || hasLongItems items

def hasLongEntries : List (String × Toml) → Bool
  | [] => false
  | (_, value) :: entries => value.hasLong || hasLongEntries entries

end

mutual

/-- The value as a literal of the emitted code. -/
def literal : Toml → String
  | .string value => Json.literal (.string value)
  | .int value => Json.literal (.int value)
  | .float value => Json.literal (.float value)
  | .bool value => Json.literal (.bool value)
  | .moment value => value.literal
  | .array items => "[" ++ ", ".intercalate (literalItems items) ++ "]"
  | .table entries => "\x7b" ++ ", ".intercalate (literalEntries entries) ++ "\x7d"

def literalItems : List Toml → List String
  | [] => []
  | item :: items => item.literal :: literalItems items

def literalEntries : List (String × Toml) → List String
  | [] => []
  | (key, value) :: entries =>
    (Json.literal (.string key) ++ ": " ++ value.literal) :: literalEntries entries

end

/-- The value inside a text, where a string stands for itself. A value that holds a number with too
many digits cannot be shown. -/
def display? : Toml → Option String
  | .string value => some value
  | .moment value => some value.toText
  | value => if value.hasLong then none else some value.literal

/-- Empty and zero values are false. -/
def truth : Toml → Bool
  | .string value => value != ""
  | .int value => value != 0
  | .float value => !value.isZero
  | .bool value => value
  | .moment _ => true
  | .array items => !items.isEmpty
  | .table entries => !entries.isEmpty

/-- The word for the kind of value. -/
def kind : Toml → String
  | .string _ => "str"
  | .int _ => "int"
  | .float _ => "float"
  | .bool _ => "bool"
  | .moment value => value.kind
  | .array _ => "list"
  | .table _ => "dict"

/-- Arrays and tables. -/
def isContainer : Toml → Bool
  | .array _ => true
  | .table _ => true
  | _ => false

end Toml
end AgentLang
