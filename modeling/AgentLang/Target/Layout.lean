import AgentLang.Text.Blank

/-!
# Indented lines

A body is indented by four columns. Empty lines stay empty, those at the two ends of a body are
dropped, and a body without code is filled up.
-/

namespace AgentLang.Target

def indentLine (line : String) : String :=
  if line.isEmpty then "" else "    " ++ line

def indent (lines : List String) : List String :=
  lines.map indentLine

/-- A line that is neither blank nor a comment. -/
def isCodeLine (line : String) : Bool :=
  match Text.stripStart line.toList with
  | [] => false
  | c :: _ => c != '#'

/-- The lines without the empty ones at the two ends. -/
def trimEmpty (lines : List String) : List String :=
  ((lines.dropWhile String.isEmpty).reverse.dropWhile String.isEmpty).reverse

/-- The lines with one that does nothing behind them if none of them is code. -/
def fillBody (lines : List String) : List String :=
  if lines.any isCodeLine then lines else lines ++ ["pass"]

/-- The body of a statement. -/
def block (lines : List String) : List String :=
  indent (fillBody (trimEmpty lines))

end AgentLang.Target
