import AgentLang.Parse.Parser
import AgentLang.Syntax.Node

/-!
# Rules of the language

The rules through which the grammar refers to itself, and the rules whose replies are worth
remembering. Everything else is built from these without recursion.
-/

namespace AgentLang.Grammar

inductive Rule where
  | type
  | argument
  | item
  | statement
  | armBody
  | ifElse
  | number
  | scalar
  | call
  | array
  | object
  | prompt
  | literal
  | access
  | operand
  | binary
  | value
  | condition
  deriving DecidableEq, Hashable, Repr

namespace Rule

def all : List Rule :=
  [.type, .argument, .item, .statement, .armBody, .ifElse, .number, .scalar, .call, .array, .object,
    .prompt, .literal, .access, .operand, .binary, .value, .condition]

/-- What a rule yields. -/
def Out : Rule → Type
  | .type => Ty
  | .statement | .armBody | .ifElse => Node
  | .call => String × List Expr
  | .object => List (String × Expr)
  | _ => Expr

/-- The rules that several alternatives try at the same place. -/
def memoised : Rule → Bool
  | .type | .argument | .item | .armBody => false
  | _ => true

end Rule

/-- The signature of the language. -/
abbrev language : Parse.Signature := ⟨Rule, Rule.Out⟩

abbrev Parser := Parse.Parser language

/-! ### Calls of the rules -/

def type : Parser Ty := Parse.Parser.call (S := language) .type
def argument : Parser Expr := Parse.Parser.call (S := language) .argument
def item : Parser Expr := Parse.Parser.call (S := language) .item
def statement : Parser Node := Parse.Parser.call (S := language) .statement
def armBody : Parser Node := Parse.Parser.call (S := language) .armBody
def ifElse : Parser Node := Parse.Parser.call (S := language) .ifElse
def number : Parser Expr := Parse.Parser.call (S := language) .number
def scalar : Parser Expr := Parse.Parser.call (S := language) .scalar
def call : Parser (String × List Expr) := Parse.Parser.call (S := language) .call
def array : Parser Expr := Parse.Parser.call (S := language) .array
def object : Parser (List (String × Expr)) := Parse.Parser.call (S := language) .object
def prompt : Parser Expr := Parse.Parser.call (S := language) .prompt
def literal : Parser Expr := Parse.Parser.call (S := language) .literal
def access : Parser Expr := Parse.Parser.call (S := language) .access
def operand : Parser Expr := Parse.Parser.call (S := language) .operand
def binary : Parser Expr := Parse.Parser.call (S := language) .binary
def value : Parser Expr := Parse.Parser.call (S := language) .value
def condition : Parser Expr := Parse.Parser.call (S := language) .condition

end AgentLang.Grammar
