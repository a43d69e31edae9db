import AgentLang.Grammar.Block
import AgentLang.Text.Blank

/-!
# Definitions and imports

Once the first word of a definition or an import has been read, nothing else can match, so that what
is malformed behind it is reported as such.
-/

namespace AgentLang.Grammar

open Parse.Parser (lit word)

/-! ### Definitions -/

def parameter : Parser Parameter :=
  Parameter.mk <$> identifier <*> hint

def parameterList : Parser (List Parameter) :=
  lit "(" *> space *> .sepBy parameter comma <* space <* closing ")"

/-- The text of a docstring without the blanks around it. -/
def docString : Parser String :=
  (fun text => String.ofList (Text.strip (trimmed 3 3 text).toList)) <$>
    Parse.Parser.token (.lit "\"\"\"" ++ .through "\"\"\"".toList) "docstring"

def functionBody : Parser (Option String × List Node) :=
  Prod.mk <$> (lit "\x7b" *> .optional (space *> docString)) <*> .many bodyItem
    <* space <* closing "\x7d"

def functionDefinition : Parser Node :=
  word "def" *> ws1 *> .commit
    ((fun name parameters returns (doc, body) => .function name parameters body returns doc)
      <$> identifier <* ws <*> parameterList <*> hint <* ws <*> functionBody)
    "Malformed function definition"

def visibility : Parser (Option Visibility) :=
  .optional (.choice [
      (fun _ => .shown) <$> word "public",
      (fun _ => .hidden) <$> word "private"]
    <* ws1)

def graphNodeDefinition : Parser Node :=
  (fun visibility name parameters returns body =>
      .graphNode name parameters body returns visibility)
    <$> visibility <* word "node" <* ws1 <*> identifier <* ws <*> parameterList <*> hint <* ws
    <*> body

/-! ### Imports -/

def nameList : Parser (List String) :=
  lit "\x7b" *> space *> .sepBy identifier comma <* space <* closing "\x7d"

def fromClause : Parser String :=
  ws *> word "from" *> ws *> quotedPath

def nodeImport : Parser Node :=
  .importNodes <$> (Parse.Parser.choice [word "nodes", word "node"] *> ws *> nameList)
    <*> fromClause

def toolImport : Parser Node :=
  .importTools <$> (Parse.Parser.choice [word "tools", word "tool"] *> ws *> nameList)
    <*> fromClause

def namedImport : Parser Node :=
  .importNames .named <$> nameList <*> fromClause

def namespaceImport : Parser Node :=
  (fun name => .importNames .whole [name]) <$> (lit "*" *> ws *> word "as" *> ws1 *> identifier)
    <*> fromClause

def defaultImport : Parser Node :=
  (fun name => .importNames .main [name]) <$> identifier <*> fromClause

def importStatement : Parser Node :=
  word "import" *> ws *> .commit
    (.choice [nodeImport, toolImport, namedImport, namespaceImport, defaultImport])
    "Malformed import statement"

end AgentLang.Grammar
