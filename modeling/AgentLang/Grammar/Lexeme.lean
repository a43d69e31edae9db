import AgentLang.Grammar.Rule
import AgentLang.Parse.Run
import AgentLang.Text.Digit

/-!
# Lexemes

Blanks, names, punctuation, comments and ends of statements. Line ends matter between statements and
are free inside brackets.
-/

namespace AgentLang.Grammar

open Parse (Pattern)

/-! ### Shapes -/

namespace Shape

def among (chars : String) : Pattern :=
  .one fun c => chars.toList.contains c

def except (chars : String) : Pattern :=
  .one fun c => !chars.toList.contains c

def wordStart : Pattern :=
  .one fun c => c.isAlpha || c == '_'

def wordPart : Pattern :=
  .one Parse.Engine.isWordChar

def identifier : Pattern :=
  wordStart ++ .star wordPart

def lineEnd : Pattern :=
  .opt (.lit "\r") ++ .lit "\n"

def lineComment : Pattern :=
  .lit "//" ++ .star (except "\n")

def blockComment : Pattern :=
  .lit "/*" ++ .through "*/".toList

/-- Blanks, line ends and comments. -/
def space : Pattern :=
  .star (.plus (among " \t\r\n") <|> lineComment <|> blockComment)

/-- Text between two marks on one line. -/
def enclosed (mark : String) : Pattern :=
  .lit mark ++ .star (except (mark ++ "\n")) ++ .lit mark

def digits : Pattern :=
  .plus (.one Text.isDecimal)

/-- Digits of any script, with a sign and a fraction if there are such. -/
def number : Pattern :=
  .opt (.lit "-") ++ digits ++ .opt (.lit "." ++ digits)

end Shape

/-! ### Tokens -/

def ws : Parser String := .token (.star (Shape.among " \t")) "whitespace"

def ws1 : Parser String := .token (.plus (Shape.among " \t")) "whitespace"

/-- Free space inside brackets. -/
def space : Parser String := .token Shape.space "whitespace"

/-- Free space where comments are kept. -/
def blank : Parser String := .token (.star (Shape.among " \t\r\n")) "whitespace"

def identifier : Parser String := .token Shape.identifier "identifier"

/-- The text without its first `front` and its last `back` characters. -/
def trimmed (front back : Nat) (text : String) : String :=
  let chars := text.toList
  String.ofList ((chars.take (chars.length - back)).drop front)

def newline : Parser Node :=
  (fun _ => .newline) <$> Parse.Parser.token Shape.lineEnd "newline"

/-- The text of a comment that goes to the end of its line. -/
def commentText : Parser String :=
  trimmed 2 0 <$> Parse.Parser.token Shape.lineComment "comment"

def comment : Parser Node := .comment <$> commentText

def blockComment : Parser Node :=
  (fun text => .blockComment (trimmed 2 2 text)) <$> Parse.Parser.token Shape.blockComment "comment"

/-- Punctuation with free space around it. -/
def symbol (text : String) : Parser String :=
  space *> .lit text <* space

def comma : Parser String := symbol ","

/-- A closing mark. -/
def closing (text : String) : Parser String :=
  .named text ("'" ++ text ++ "'")

def quotedPath : Parser String :=
  trimmed 1 1 <$> Parse.Parser.token (Shape.enclosed "\"" <|> Shape.enclosed "'") "quoted path"

/-- How a statement ends. -/
inductive Ending where
  | semicolons (text : String)
  /-- Blanks, and then something that no statement goes on with, or the end of the text. -/
  | follows (blanks : String) (next : Option String)
  deriving DecidableEq, Repr

def statementEnd : Parser Ending :=
  .choice [
    .semicolons <$> Parse.Parser.token
      (.star (Shape.among " \t") ++ .lit ";" ++ .star (Shape.among " \t;")) "';'",
    .follows <$> ws <*> .lookahead (.choice [
      some <$> Parse.Parser.token Shape.lineEnd "newline",
      some <$> Parse.Parser.lit "\x7d",
      some <$> Parse.Parser.lit "//",
      some <$> Parse.Parser.lit "/*",
      (fun _ => none) <$> Parse.Parser.eof])]

end AgentLang.Grammar
