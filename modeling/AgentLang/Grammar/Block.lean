import AgentLang.Grammar.TypeTerm
import AgentLang.Grammar.Value

/-!
# Statements and bodies

A body is a sequence of line ends, comments and statements. A statement ends with semicolons or
before a line end, a closing brace, a comment or the end of the text.
-/

namespace AgentLang.Grammar

open Parse.Parser (lit word)

/-! ### Bodies -/

def terminatedStatement : Parser Node := statement <* statementEnd

def bodyItem : Parser Node :=
  ws *> .choice [newline, comment, blockComment, terminatedStatement]

def body : Parser (List Node) :=
  lit "\x7b" *> .many bodyItem <* space <* closing "\x7d"

/-! ### Simple statements -/

def typeHint : Parser Node :=
  .hint <$> identifier <* ws <* lit "::" <* ws <*> type

def specialVar : Parser Node :=
  .special <$> (lit "@" *> .choice [word "model", word "messages"]) <* ws <* lit "=" <* ws <*> value

def returnStatement : Parser Node :=
  .ret <$> (word "return" *> .optional (ws1 *> value))

def usesTool : Parser Node :=
  (fun first others => .uses (first :: others)) <$>
    (Parse.Parser.choice [word "uses" <* ws1, word "use" <* ws1, lit "+"] *> ws *> identifier)
    <*> .many (comma *> identifier)

def goto : Parser Node :=
  .goto <$> (word "goto" *> ws1 *> identifier) <* ws <* lit "(" <* space
    <*> .sepBy (.choice [access, callExpr, literal]) comma <* space <* closing ")"

/-! ### Blocks -/

def messageThread : Parser Node :=
  .thread <$> Parse.Parser.choice [
      (fun _ => .fresh) <$> word "thread",
      (fun _ => .child) <$> word "subthread",
      (fun _ => .branch) <$> word "parallel"]
    <* ws <*> body

def timeBlock : Parser Node :=
  (fun prints body => .timed body prints) <$> Parse.Parser.choice [
      (fun _ => true) <$> word "printTime",
      (fun _ => false) <$> word "time"]
    <* ws <*> body

def parenthesized : Parser Expr :=
  lit "(" *> space *> condition <* space <* closing ")"

/-- What stands behind `else`, where a chained `if` is a body of its own. -/
def elseBranch : Parser (List Node) :=
  space *> word "else" *> ws *> .choice [(fun nested => [nested]) <$> ifElse, body]

def ifElseBody : Parser Node :=
  .ifElse <$> (word "if" *> ws *> parenthesized) <* ws <*> body <*> .optional elseBranch

def whileLoop : Parser Node :=
  .loop <$> (word "while" *> ws *> parenthesized) <* ws <*> body

/-! ### Assignments -/

def assignment : Parser Node :=
  .assign <$> identifier <*> hint <* ws <* lit "=" <* .notFollowedBy (lit "=") "'='" <* ws
    <*> .choice [messageThread, timeBlock, .expr <$> value]

/-! ### Selections -/

def defaultCase : Parser (Option Expr) :=
  (fun _ _ => none) <$> lit "_"
    <*> .notFollowedBy (Parse.Parser.token Shape.wordPart "identifier") "identifier"

def caseValue : Parser (Option Expr) :=
  .choice [defaultCase, some <$> access, some <$> literal]

def armBodyBody : Parser Node :=
  .choice [returnStatement, goto, assignment, .expr <$> value]

def arm : Parser Arm :=
  .arm <$> caseValue <* ws <* lit "=>" <* ws <*> armBody
    <* .token (.star (Shape.among " \t") ++ .opt (Shape.among ";,")) "';'"

def selection : Parser Node :=
  .select <$> (word "match" *> ws *> parenthesized) <* ws <* lit "\x7b"
    <*> .many (blank *> .choice [.comment <$> commentText, arm]) <* space <* closing "\x7d"

end AgentLang.Grammar
