import AgentLang.Json.Value

/-!
# Checked reading of documents

A document is read as a value of some type or refused with all that is wrong with it, each issue at
its location. Issues of the parts of an object stand in the order in which the parts are asked for.
-/

namespace AgentLang.Json

/-- A step of a location. -/
inductive Key where
  | field (name : String)
  | item (index : Nat)
  deriving DecidableEq, Repr

inductive IssueKind where
  | missing
  | stringType
  | boolType
  | boolParsing
  | listType
  | tooShort
  | literal
  | operator
  | modelType
  | objectType
  | tagMissing
  | tagInvalid
  deriving DecidableEq, Repr

structure Issue where
  location : List Key
  kind : IssueKind
  deriving DecidableEq, Repr

inductive Checked (α : Type) where
  | valid (value : α)
  | refused (issues : List Issue)
  deriving Repr

namespace Checked

variable {α β : Type}

def map (f : α → β) : Checked α → Checked β
  | .valid value => .valid (f value)
  | .refused issues => .refused issues

/-- Both parts, or the issues of both. -/
def both (first : Checked (α → β)) (second : Checked α) : Checked β :=
  match first, second with
  | .valid f, .valid value => .valid (f value)
  | .valid _, .refused issues => .refused issues
  | .refused issues, .valid _ => .refused issues
  | .refused issues, .refused others => .refused (issues ++ others)

instance : Functor Checked where
  map := map

instance : Applicative Checked where
  pure := .valid
  seq first second := both first (second ())

end Checked

/-- Reads a document that stands at a location. -/
abbrev Reader (α : Type) := List Key → Json → Checked α

namespace Reader

variable {α : Type}

def refuse (location : List Key) (kind : IssueKind) : Checked α :=
  .refused [⟨location, kind⟩]

def text : Reader String
  | _, .string value => .valid value
  | location, _ => refuse location .stringType

/-- The words that stand for a truth value, in any case. -/
def flagOfWord? (word : String) : Option Bool :=
  let word := word.toList.map Char.toLower
  if word ∈ ["0", "f", "n", "no", "off", "false"].map String.toList then some false
  else if word ∈ ["1", "t", "y", "yes", "on", "true"].map String.toList then some true
  else none

def flagOfInt? (n : Int) : Option Bool :=
  if n = 0 then some false else if n = 1 then some true else none

/-- Numbers of this size or more, of either sign, are not compared with truth values. -/
def numberBound : Nat := 9223372036854775808

/-- A truth value given by a number. -/
def flagOfNumber (location : List Key) (n : Int) : Checked Bool :=
  if numberBound ≤ n.natAbs then refuse location .boolType
  else
    match flagOfInt? n with
    | some value => .valid value
    | none => refuse location .boolParsing

/-- The whole number that a finite floating-point number is. -/
def wholeOf? : Number.Binary64 → Option Int
  | .finite negative mantissa exponent =>
    let magnitude : Option Nat :=
      if 0 ≤ exponent then some (mantissa * Nat.pow 2 exponent.toNat)
      else
        let unit := Nat.pow 2 (-exponent).toNat
        if mantissa % unit = 0 then some (mantissa / unit) else none
    magnitude.map fun n => if negative then -(n : Int) else n
  | _ => none

/-- A truth value, also given by a number or a word. -/
def flag : Reader Bool
  | _, .bool value => .valid value
  | location, .string word =>
    match flagOfWord? word with
    | some value => .valid value
    | none => refuse location .boolParsing
  | location, .int n => flagOfNumber location n
  | location, .float x =>
    match wholeOf? x with
    | some n => flagOfNumber location n
    | none => refuse location .boolType
  | location, _ => refuse location .boolType

def itemsFrom (read : Reader α) (location : List Key) : Nat → List Json → Checked (List α)
  | _, [] => .valid []
  | index, item :: items =>
    List.cons <$> read (location ++ [.item index]) item
      <*> itemsFrom read location (index + 1) items

def listOf (read : Reader α) : Reader (List α)
  | location, .array items => itemsFrom read location 0 items
  | location, _ => refuse location .listType

/-- A list with at least one item. -/
def nonemptyOf (read : Reader α) : Reader (List α)
  | location, .array [] => refuse location .tooShort
  | location, json => listOf read location json

def nullable (read : Reader α) : Reader (Option α)
  | _, .null => .valid none
  | location, json => some <$> read location json

/-- One of some words. -/
def wordOf (known : String → Option α) (kind : IssueKind) : Reader α
  | location, .string word =>
    match known word with
    | some value => .valid value
    | none => refuse location kind
  | location, _ => refuse location kind

abbrev Fields := List (String × Json)

/-- A field that has to be there. -/
def required (name : String) (read : Reader α) (location : List Key) (fields : Fields) :
    Checked α :=
  match fields.lookup name with
  | some json => read (location ++ [.field name]) json
  | none => refuse (location ++ [.field name]) .missing

/-- A field with a value to fall back on. -/
def defaulted (name : String) (fallback : α) (read : Reader α) (location : List Key)
    (fields : Fields) : Checked α :=
  match fields.lookup name with
  | some json => read (location ++ [.field name]) json
  | none => .valid fallback

/-- A field that, where it is given, repeats what is known already. -/
def constant (name word : String) (location : List Key) (fields : Fields) : Checked Unit :=
  defaulted name () (wordOf (fun given => if given = word then some () else none) .literal) location
    fields

/-- An object of one known kind. -/
def model (read : List Key → Fields → Checked α) : Reader α
  | location, .object fields => read location fields
  | location, _ => refuse location .modelType

/-- An object of one of several kinds, told apart by the word in a field. -/
def union (selector : String) (kinds : List String)
    (read : (kind : String) → List Key → Fields → Checked α) : Reader α
  | location, .object fields =>
    match fields.lookup selector with
    | none => refuse location .tagMissing
    | some (.string kind) =>
      if kind ∈ kinds then read kind (location ++ [.field kind]) fields
      else refuse location .tagInvalid
    | some _ => refuse location .tagInvalid
  | location, _ => refuse location .objectType

end Reader
end AgentLang.Json
