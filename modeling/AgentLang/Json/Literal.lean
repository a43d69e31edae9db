import AgentLang.Json.Write

/-!
# Values as literals

How a value is written in emitted code, how it is shown inside a text, and whether it counts as
true.
-/

namespace AgentLang

namespace JsonOf

open Json (intText)

variable {τ : Type}

mutual

/-- The value as a literal of the emitted code, with the given written form of texts. -/
def literalWith (quote : τ → String) : JsonOf τ → String
  | .null => "None"
  | .bool value => if value then "True" else "False"
  | .int value => intText value
  | .float value => value.toText
  | .string value => quote value
  | .array items => "[" ++ ", ".intercalate (literalItems quote items) ++ "]"
  | .object fields => "\x7b" ++ ", ".intercalate (literalFields quote fields) ++ "\x7d"

def literalItems (quote : τ → String) : List (JsonOf τ) → List String
  | [] => []
  | item :: items => item.literalWith quote :: literalItems quote items

def literalFields (quote : τ → String) : List (τ × JsonOf τ) → List String
  | [] => []
  | (name, value) :: fields =>
    (quote name ++ ": " ++ value.literalWith quote) :: literalFields quote fields

end

end JsonOf

namespace Json

/-- The value as a literal of the emitted code. -/
def literal (json : Json) : String := json.literalWith Text.quotePlain

/-- The value inside a text, where a string stands for itself. -/
def display : Json → String
  | .string value => value
  | json => json.literal

/-- Empty, zero and absent values are false. -/
def truth : Json → Bool
  | .null => false
  | .bool value => value
  | .int value => value != 0
  | .float value => !value.isZero
  | .string value => value != ""
  | .array items => !items.isEmpty
  | .object fields => !fields.isEmpty

end Json
end AgentLang
