/-!
# Expressions

Literals, prompts, access chains, arrays, objects, calls and binary operations. The type is more
liberal than the language: which expressions may stand where is a matter of well-formedness.
-/

namespace AgentLang

/-- A piece of a string or of a prompt. -/
inductive Segment where
  /-- Text as it was written, escapes included. -/
  | text (value : String)
  | interpolation (name : String)
  deriving DecidableEq, Repr

inductive BinaryOp where
  | eq | ne | addAssign | subAssign | mulAssign | divAssign | le | ge
  | add | sub | mul | div | lt | gt
  deriving DecidableEq, Repr

namespace BinaryOp

/-- All operators. One that is the beginning of another comes later. -/
def all : List BinaryOp :=
  [.eq, .ne, .addAssign, .subAssign, .mulAssign, .divAssign, .le, .ge, .add, .sub, .mul, .div, .lt,
    .gt]

def toText : BinaryOp → String
  | .eq => "=="
  | .ne => "!="
  | .addAssign => "+="
  | .subAssign => "-="
  | .mulAssign => "*="
  | .divAssign => "/="
  | .le => "<="
  | .ge => ">="
  | .add => "+"
  | .sub => "-"
  | .mul => "*"
  | .div => "/"
  | .lt => "<"
  | .gt => ">"

def ofText? (text : String) : Option BinaryOp :=
  all.find? (·.toText == text)

/-- Whether the operator changes its left operand. -/
def isAssignment : BinaryOp → Bool
  | .addAssign | .subAssign | .mulAssign | .divAssign => true
  | _ => false

end BinaryOp

mutual

inductive Expr where
  /-- A number, kept as it was written. -/
  | number (text : String)
  | string (segments : List Segment)
  | multiline (segments : List Segment)
  | boolean (value : Bool)
  | name (name : String)
  /-- A prompt for the model, with the fields of its configuration. -/
  | prompt (segments : List Segment) (config : Option (List (String × Expr)))
  | access (base : Expr) (chain : List Step)
  | array (items : List Expr)
  | object (entries : List (String × Expr))
  | call (function : String) (arguments : List Expr)
  | binary (op : BinaryOp) (left right : Expr)

/-- A link of an access chain. -/
inductive Step where
  | property (name : String)
  | index (index : Expr)
  | method (function : String) (arguments : List Expr)

end

namespace Expr

/-- The word that names the kind of an expression. -/
def tag : Expr → String
  | .number _ => "number"
  | .string _ => "string"
  | .multiline _ => "multiLineString"
  | .boolean _ => "boolean"
  | .name _ => "variableName"
  | .prompt .. => "prompt"
  | .access .. => "accessExpression"
  | .array _ => "adlArray"
  | .object _ => "adlObject"
  | .call .. => "functionCall"
  | .binary .. => "binOpExpression"

end Expr

namespace Segment

/-- The names that segments refer to, each once, in the order of their first occurrence. -/
def names (segments : List Segment) : List String :=
  segments.foldl (fun seen segment =>
    match segment with
    | .text _ => seen
    | .interpolation name => if name ∈ seen then seen else seen ++ [name]) []

end Segment
end AgentLang
