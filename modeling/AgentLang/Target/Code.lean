import AgentLang.Target.Literal
import AgentLang.Target.Temp
import AgentLang.Text.Quoted

/-!
# Expressions of the emitted code

Names are resolved and prompts have become calls of numbered functions.
-/

namespace AgentLang.Target

mutual

inductive Code where
  | number (text : String)
  | string (segments : List Segment) (multiline : Bool)
  | boolean (value : Bool)
  | name (name : String)
  /-- A call of the function that was made for a prompt. -/
  | prompt (index : Nat) (parameters : List String)
  | access (base : Code) (links : List Link)
  | list (items : List Code)
  | dict (entries : List (String × Code))
  | call (function : String) (arguments : List Code)
  /-- A call that goes through the graph. -/
  | invoke (function : String) (arguments : List Code)
  | binary (op : BinaryOp) (left right : Code)
  | parameter (name : String) (typeCode : Option String)

inductive Link where
  | property (name : String)
  | index (index : Code)
  | method (function : String) (arguments : List Code)

end

def commaSeparated (texts : List String) : String := ", ".intercalate texts

/-- A parameter with its annotation. -/
def parameterText (name : String) : Option String → String
  | none => name
  | some type => name ++ ": " ++ type

mutual

def Code.toText : Code → String
  | .number digits => digits
  | .string segments multiline => stringLiteral segments multiline
  | .boolean value => if value then "True" else "False"
  | .name ident => ident
  | .prompt index parameters =>
    (Temp.mk .prompt index).toText ++ "(" ++ commaSeparated parameters ++ ")"
  | .access base links => base.toText ++ Code.linksText links
  | .list items => "[" ++ commaSeparated (Code.texts items) ++ "]"
  | .dict entries => "\x7b" ++ commaSeparated (Code.entryTexts entries) ++ "\x7d"
  | .call function arguments => function ++ "(" ++ commaSeparated (Code.texts arguments) ++ ")"
  | .invoke function arguments =>
    "graph.invoke(" ++ Text.quoteAscii function ++ ", [" ++ commaSeparated (Code.texts arguments)
      ++ "])"
  | .binary op left right => left.toText ++ " " ++ op.toText ++ " " ++ right.toText
  | .parameter ident type => parameterText ident type

def Code.texts : List Code → List String
  | [] => []
  | code :: codes => code.toText :: Code.texts codes

def Code.entryTexts : List (String × Code) → List String
  | [] => []
  | (key, value) :: entries =>
    (Text.quoteAscii key ++ ": " ++ value.toText) :: Code.entryTexts entries

def Code.linksText : List Link → String
  | [] => ""
  | .property field :: links => "." ++ field ++ Code.linksText links
  | .index index :: links => "[" ++ index.toText ++ "]" ++ Code.linksText links
  | .method function arguments :: links =>
    "." ++ function ++ "(" ++ commaSeparated (Code.texts arguments) ++ ")" ++ Code.linksText links

end

end AgentLang.Target
