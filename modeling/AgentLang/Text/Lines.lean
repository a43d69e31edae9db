/-!
# Lines

Cutting text at a character and joining lines.
-/

namespace AgentLang.Text

/-- The stretches between the occurrences of a character, with one more stretch than occurrences. -/
def splitAt (mark : Char) : List Char → List (List Char)
  | [] => [[]]
  | c :: rest =>
    if c = mark then
      [] :: splitAt mark rest
    else
      match splitAt mark rest with
      | [] => [[c]]
      | first :: others => (c :: first) :: others

/-- The lines of a text, cut at line feeds. -/
def lines (text : String) : List String :=
  (splitAt '\n' text.toList).map String.ofList

def joinLines (lines : List String) : String :=
  "\n".intercalate lines

/-- Carriage returns, alone or before a line feed, become line feeds. -/
def unifyLineEnds : List Char → List Char
  | [] => []
  | '\r' :: '\n' :: rest => '\n' :: unifyLineEnds rest
  | c :: rest => (if c = '\r' then '\n' else c) :: unifyLineEnds rest

end AgentLang.Text
