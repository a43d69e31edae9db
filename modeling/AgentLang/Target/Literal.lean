import AgentLang.Syntax.Expr
import AgentLang.Text.Lines

/-!
# String literals of the emitted code

Segments become one literal between double quotation marks, a formatted one when a name is
interpolated. Escapes that only the source language knows lose their backslash; whatever would end
the literal or break its line is escaped.
-/

namespace AgentLang.Target

def isBrace (c : Char) : Bool := c == '\x7b' || c == '\x7d'

/-- Text of the source language inside a literal. In a formatted literal braces are doubled; in one
over several lines a line end stands for itself. -/
def escapeText (formatted multiline : Bool) : List Char → List Char
  | '\\' :: c :: rest =>
    let kept := if c = '$' || c = '`' then [c] else ['\\', c]
    let doubled := if formatted && isBrace c then [c] else []
    kept ++ doubled ++ escapeText formatted multiline rest
  | c :: rest =>
    let shown :=
      if c = '"' then ['\\', '"']
      else if c = '\n' && !multiline then ['\\', 'n']
      else if c = '\r' then ['\\', 'r']
      else if formatted && isBrace c then [c, c]
      else [c]
    shown ++ escapeText formatted multiline rest
  | [] => []

def isInterpolation : Segment → Bool
  | .interpolation _ => true
  | .text _ => false

def segmentText (formatted multiline : Bool) : Segment → List Char
  | .interpolation name => '\x7b' :: name.toList ++ ['\x7d']
  | .text value => escapeText formatted multiline value.toList

/-- The literal that segments denote. -/
def stringLiteral (segments : List Segment) (multiline : Bool) : String :=
  let formatted := segments.any isInterpolation
  let mark := if multiline then "\"\"\"" else "\""
  let body := segments.flatMap (segmentText formatted multiline)
  (if formatted then "f" else "") ++ mark ++ String.ofList body ++ mark

/-- Three quotation marks in a row are escaped. -/
def escapeTripleMarks : List Char → List Char
  | '"' :: '"' :: '"' :: rest => ['\\', '"', '\\', '"', '\\', '"'] ++ escapeTripleMarks rest
  | c :: rest => c :: escapeTripleMarks rest
  | [] => []

/-- The lines of a documentation string. The closing marks of one over several lines stand on a line
of their own. -/
def docLines : Option String → List String
  | none => []
  | some text =>
    match (Text.splitAt '\n' (escapeTripleMarks text.toList)).map String.ofList with
    | [] => []
    | [line] => ["\"\"\"" ++ line ++ "\"\"\""]
    | first :: others => ("\"\"\"" ++ first) :: others ++ ["\"\"\""]

end AgentLang.Target
