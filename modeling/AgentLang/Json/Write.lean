import AgentLang.Json.Value
import AgentLang.Text.Quoted

/-!
# Writing JSON

A compact form in ASCII and an indented form that keeps all printable characters as they are.
-/

namespace AgentLang.Json

/-- Why a value cannot be written. -/
inductive Unwritable where
  /-- Something in it is no value of documents. -/
  | foreign
  /-- A whole number in it has too many digits. -/
  | digits
  deriving DecidableEq, Repr

def intText (n : Int) : String :=
  if n < 0 then "-" ++ Nat.repr n.natAbs else Nat.repr n.natAbs

/-- A floating-point number, where those that are not finite have words of their own. -/
def floatText : Number.Binary64 → String
  | .nan => "NaN"
  | .infinite negative => if negative then "-Infinity" else "Infinity"
  | value => value.toText

mutual

/-- The value on one line, in ASCII. -/
def compact : Json → String
  | .null => "null"
  | .bool value => if value then "true" else "false"
  | .int value => intText value
  | .float value => floatText value
  | .string value => Text.quoteAscii value
  | .array items => "[" ++ ", ".intercalate (compactItems items) ++ "]"
  | .object fields => "\x7b" ++ ", ".intercalate (compactFields fields) ++ "\x7d"

def compactItems : List Json → List String
  | [] => []
  | item :: items => item.compact :: compactItems items

def compactFields : List (String × Json) → List String
  | [] => []
  | (name, value) :: fields =>
    (Text.quoteAscii name ++ ": " ++ value.compact) :: compactFields fields

end

namespace Indented

def escape (c : Char) : List Char :=
  if c = '"' || c = '\\' then ['\\', c]
  else if c = '\n' then ['\\', 'n']
  else if c = '\r' then ['\\', 'r']
  else if c = '\t' then ['\\', 't']
  else if c = '\x08' then ['\\', 'b']
  else if c = '\x0c' then ['\\', 'f']
  else if c.toNat < 0x20 then Text.Ascii.units c.toNat
  else [c]

/-- A string in which only marks, backslashes and control characters are escaped. -/
def quote (text : String) : String :=
  String.ofList ('"' :: text.toList.flatMap escape ++ ['"'])

def margin (level : Nat) : String :=
  String.ofList (List.replicate (2 * level) ' ')

/-- Lines one level deeper than `level` between two brackets. -/
def enclosed (opening closing : String) (level : Nat) (parts : List String) : String :=
  if parts.isEmpty then opening ++ closing
  else opening ++ "\n" ++ ",\n".intercalate (parts.map (margin (level + 1) ++ ·)) ++ "\n"
    ++ margin level ++ closing

end Indented

open Indented in
mutual

/-- The value over several lines, two blanks a level. -/
def indented (level : Nat) : Json → String
  | .null => "null"
  | .bool value => if value then "true" else "false"
  | .int value => intText value
  | .float value => value.toText
  | .string value => quote value
  | .array items => enclosed "[" "]" level (indentedItems (level + 1) items)
  | .object fields => enclosed "\x7b" "\x7d" level (indentedFields (level + 1) fields)

def indentedItems (level : Nat) : List Json → List String
  | [] => []
  | item :: items => item.indented level :: indentedItems level items

def indentedFields (level : Nat) : List (String × Json) → List String
  | [] => []
  | (name, value) :: fields =>
    (Indented.quote name ++ ": " ++ value.indented level) :: indentedFields level fields

end

end AgentLang.Json
