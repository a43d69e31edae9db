import AgentLang.Grammar.Lexeme

/-!
# Strings and prompts

Text with interpolated names between marks. The text is kept as it is written, escapes included.
-/

namespace AgentLang.Grammar

open Parse (Pattern)

namespace Shape

/-- A dollar sign that opens no interpolation. -/
def dollar : Pattern := .lit "$" ++ .unless ['\x7b']

/-- Any character. -/
def any : Pattern := .one fun _ => true

/-- Text of a string on one line. -/
def lineText : Pattern :=
  .plus (except "\"\\$\n" <|> (.lit "\\" ++ except "\n") <|> dollar)

/-- Text of a string over several lines. -/
def multilineText : Pattern :=
  .plus (except "\"\\$" <|> (.lit "\\" ++ any) <|> (.lit "\"" ++ .unless "\"\"".toList) <|> dollar)

/-- Text of a prompt. -/
def promptText : Pattern :=
  .plus (except "`\\$" <|> (.lit "\\" ++ any) <|> dollar)

end Shape

def interpolation : Parser Segment :=
  .interpolation <$> (Parse.Parser.lit "$\x7b" *> ws *> identifier <* ws <* .lit "\x7d")

/-- Pieces of text of a given shape and interpolations. -/
def segments (text : Pattern) : Parser (List Segment) :=
  .many (.choice [interpolation, .text <$> Parse.Parser.token text "text"])

/-- Segments between two equal marks. -/
def quoted (mark : String) (text : Pattern) : Parser (List Segment) :=
  .between (.lit mark) (segments text) (.named mark ("closing '" ++ mark ++ "'"))

def stringSegments : Parser (List Segment) := quoted "\"" Shape.lineText

def stringLiteral : Parser Expr := .string <$> stringSegments

def multilineString : Parser Expr := .multiline <$> quoted "\"\"\"" Shape.multilineText

def backtickPrompt : Parser Expr := (.prompt · none) <$> quoted "`" Shape.promptText

def numberLiteral : Parser Expr := .number <$> Parse.Parser.token Shape.number "number"

def truth : Parser Bool :=
  (· == "true") <$> Parse.Parser.choice [.word "true", .word "false"]

def boolean : Parser Expr := .boolean <$> truth

def variableName : Parser Expr := .name <$> identifier

/-- The mark of three is tried before the single one. -/
def scalarLiteral : Parser Expr :=
  .choice [multilineString, stringLiteral, number, boolean]

end AgentLang.Grammar
