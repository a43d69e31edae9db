import AgentLang.Grammar.Quotation

/-!
# Expressions

Alternatives are tried in order, and the order is part of the language: prompts come before calls,
access chains before the calls they begin with, and binary operations before everything.
-/

namespace AgentLang.Grammar

open Parse.Parser (lit)

/-- A call as an expression. -/
def callExpr : Parser Expr := (fun (function, arguments) => .call function arguments) <$> call

/-- An object as an expression. -/
def objectExpr : Parser Expr := .object <$> object

/-! ### Calls and structures -/

def argumentBody : Parser Expr :=
  .choice [prompt, access, callExpr, literal]

def callBody : Parser (String × List Expr) :=
  Prod.mk <$> identifier <* lit "(" <* space <*> .sepBy argument comma <* space <* closing ")"

def itemBody : Parser Expr :=
  .choice [prompt, access, callExpr, objectExpr, array, literal]

def arrayBody : Parser Expr :=
  .array <$> (lit "[" *> space *> .sepBy item comma <* .optional comma <* space <* closing "]")

def objectKey : Parser String :=
  .choice [identifier, trimmed 1 1 <$> Parse.Parser.token (Shape.enclosed "\"") "quoted key"]

def objectEntry : Parser (String × Expr) :=
  Prod.mk <$> objectKey <* space <* lit ":" <* space <*> item

def objectBody : Parser (List (String × Expr)) :=
  lit "\x7b" *> space *> .sepBy objectEntry comma <* .optional comma <* space <* closing "\x7d"

/-! ### Prompts and literals -/

def llmPrompt : Parser Expr :=
  .prompt <$> (lit "llm(" *> space *> stringSegments) <*> .optional (comma *> object)
    <* space <* closing ")"

def promptBody : Parser Expr :=
  .choice [backtickPrompt, llmPrompt]

def literalBody : Parser Expr :=
  .choice [prompt, scalar, variableName]

/-! ### Access chains -/

def methodStep : Parser Step :=
  (fun (function, arguments) => .method function arguments) <$> (lit "." *> call)

def propertyStep : Parser Step := .property <$> (lit "." *> identifier)

def indexStep : Parser Step :=
  .index <$> (lit "[" *> space *> item <* space <* closing "]")

def chainStep : Parser Step :=
  .choice [methodStep, propertyStep, indexStep]

def accessBody : Parser Expr :=
  .access <$> Parse.Parser.choice [callExpr, variableName] <*> .many1 chainStep

/-! ### Binary operations -/

def operator : Parser BinaryOp :=
  .label (.choice (BinaryOp.all.map fun op => (fun _ => op) <$> lit op.toText)) "operator"

def operandBody : Parser Expr :=
  .choice [prompt, access, callExpr, objectExpr, array, literal]

def binaryBody : Parser Expr :=
  (fun left op right => .binary op left right) <$> operand <* ws <*> operator <* ws <*> operand

/-- What may stand on the right of an assignment, behind `return` and as a statement. -/
def valueBody : Parser Expr :=
  .choice [binary, prompt, access, callExpr, array, objectExpr, literal]

def conditionBody : Parser Expr :=
  .choice [binary, access, callExpr, literal]

end AgentLang.Grammar
