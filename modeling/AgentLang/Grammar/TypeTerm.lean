import AgentLang.Grammar.Quotation

/-!
# Types

Names of types, arrays written behind or around their element, and types of single values.
-/

namespace AgentLang.Grammar

def primitiveType : Parser Ty :=
  .named <$> Parse.Parser.choice [.word "number", .word "string", .word "boolean"]

def genericArrayType : Parser Ty :=
  .array <$> (Parse.Parser.word "array" *> ws *> .lit "<" *> space *> type <* space <* .lit ">")

def stringLiteralType : Parser Ty :=
  (fun text => .text (trimmed 1 1 text)) <$>
    Parse.Parser.token (Shape.enclosed "\"") "string literal type"

def numberLiteralType : Parser Ty :=
  .number <$> Parse.Parser.token Shape.number "number literal type"

def booleanLiteralType : Parser Ty := .boolean <$> truth

def baseType : Parser Ty :=
  .choice [genericArrayType, primitiveType, stringLiteralType, numberLiteralType,
    booleanLiteralType]

/-- A type with as many array marks as are written behind it. -/
def typeBody : Parser Ty :=
  (fun base marks => marks.foldl (fun element _ => .array element) base) <$> baseType
    <*> .many (.lit "[]")

/-- A type behind a colon. -/
def hint : Parser (Option Ty) :=
  .optional (ws *> .lit ":" *> ws *> type)

end AgentLang.Grammar
