import AgentLang.Number.Shortest
import AgentLang.Text.Loose

/-!
# JSON values

Values as documents hold them: the fields of an object keep their order, and whole numbers are kept
apart from floating-point ones.
-/

namespace AgentLang

/-- Values whose texts are of the given type. -/
inductive JsonOf (τ : Type) where
  | null
  | bool (value : Bool)
  | int (value : Int)
  | float (value : Number.Binary64)
  | string (value : τ)
  | array (items : List (JsonOf τ))
  | object (fields : List (τ × JsonOf τ))
  deriving Repr, Inhabited

abbrev Json := JsonOf String

/-- Values as they are read, before anyone asks for whole texts. -/
abbrev LooseJson := JsonOf Text.Loose

namespace JsonOf

variable {τ σ : Type}

/-- Sets a field. A new one goes to the end, a known one stays where it is. -/
def setField [DecidableEq τ] (name : τ) (value : JsonOf τ) :
    List (τ × JsonOf τ) → List (τ × JsonOf τ)
  | [] => [(name, value)]
  | (known, old) :: rest =>
    if known = name then (known, value) :: rest else (known, old) :: setField name value rest

mutual

/-- How deep a value nests. -/
def depth : JsonOf τ → Nat
  | .array items => depthItems items + 1
  | .object fields => depthFields fields + 1
  | _ => 1

def depthItems : List (JsonOf τ) → Nat
  | [] => 0
  | item :: items => max item.depth (depthItems items)

def depthFields : List (τ × JsonOf τ) → Nat
  | [] => 0
  | (_, value) :: fields => max value.depth (depthFields fields)

end

mutual

/-- The same value with other texts. -/
def mapText (f : τ → σ) : JsonOf τ → JsonOf σ
  | .null => .null
  | .bool value => .bool value
  | .int value => .int value
  | .float value => .float value
  | .string value => .string (f value)
  | .array items => .array (mapTextItems f items)
  | .object fields => .object (mapTextFields f fields)

def mapTextItems (f : τ → σ) : List (JsonOf τ) → List (JsonOf σ)
  | [] => []
  | item :: items => item.mapText f :: mapTextItems f items

def mapTextFields (f : τ → σ) : List (τ × JsonOf τ) → List (σ × JsonOf σ)
  | [] => []
  | (name, value) :: fields => (f name, value.mapText f) :: mapTextFields f fields

end

end JsonOf

namespace Json

export JsonOf (null bool int float string array object)

/-- The field of that name. -/
def field? (name : String) : Json → Option Json
  | .object fields => fields.lookup name
  | _ => none

end Json
end AgentLang
