import AgentLang.Files.Path
import AgentLang.Names

/-!
# Diagnostics

Where in a source text something is wrong, shown with the lines around it and a marker under the
place.
-/

namespace AgentLang

/-- The line and the column of an offset, both counted from one. Offsets outside the text are moved
to its nearest end. -/
def lineAndColumn (source : List Char) (position : Int) : Nat × Nat :=
  let before := source.take (min position source.length).toNat
  (before.count '\n' + 1, (before.reverse.takeWhile (· != '\n')).length + 1)

/-- A place in a file, with the source lines around it if they are known. -/
structure Excerpt where
  file : Path
  line : Int
  column : Int
  snippet : Option String

namespace Excerpt

def intText (n : Int) : String :=
  if n < 0 then "-" ++ Nat.repr n.natAbs else Nat.repr n.natAbs

def blanks (count : Nat) : String := String.ofList (List.replicate count ' ')

/-- The number of a line, four places wide, before the line. -/
def margin (number : Int) : String :=
  let digits := intText number
  blanks (4 - digits.length) ++ digits ++ " | "

/-- The first line that a snippet shows. -/
def firstLine (line : Int) : Int := max 1 (line - 2)

/-- Numbered lines, with a marker under the column of the failing one. -/
def annotate (line column : Int) : (number : Int) → List String → List String
  | _, [] => []
  | number, text :: rest =>
    let shown := margin number ++ text
    let others := annotate line column (number + 1) rest
    if number = line then
      shown :: (blanks ((margin number).length + column - 1).toNat ++ "^^^") :: others
    else
      shown :: others

def toText (c : Excerpt) : String :=
  let place := c.file.toText ++ ":" ++ intText c.line ++ ":" ++ intText c.column
  match c.snippet with
  | none => place
  | some "" => place
  | some snippet =>
    let shown := annotate c.line c.column (firstLine c.line) (Text.lines snippet)
    place ++ "\n" ++ Text.joinLines shown

end Excerpt

/-- The lines from two before to two after a line. -/
def snippetAround (source : String) (line : Nat) : String :=
  let first := max 1 (line - 2)
  Text.joinLines (((Text.lines source).take (line + 2)).drop (first - 1))

/-- A source text that is not a program. -/
structure ParseError where
  message : String
  position : Int
  expected : Names
  source : String
  file : Option Path

namespace ParseError

def place (e : ParseError) : Nat × Nat :=
  lineAndColumn e.source.toList e.position

/-- The place in the source, unless the source is empty. -/
def excerpt? (e : ParseError) : Option Excerpt :=
  if e.source = "" then none
  else
    let (line, column) := e.place
    some ⟨e.file.getD (.ofText "<input>"), line, column, some (snippetAround e.source line)⟩

/-- The message below its excerpt. -/
def withExcerpt (message : String) : Option Excerpt → String
  | none => message
  | some excerpt => excerpt.toText ++ "\n" ++ message

def toText (e : ParseError) : String :=
  withExcerpt e.message e.excerpt?

/-- The error with its place and everything that would have been accepted there. -/
def diagnostic (e : ParseError) : String :=
  if e.expected.list.isEmpty then e.toText
  else e.toText ++ "\nExpected one of: " ++ ", ".intercalate e.expected.list

end ParseError
end AgentLang
