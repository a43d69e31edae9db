import AgentLang.Text.CodeSet

/-!
# Blank characters

White space of all scripts, and the ways in which text is cut at it.
-/

namespace AgentLang.Text

def blank : CodeSet where
  flips := [0x9, 0xe, 0x1c, 0x21, 0x85, 0x86, 0xa0, 0xa1, 0x1680, 0x1681, 0x2000, 0x200b, 0x2028,
    0x202a, 0x202f, 0x2030, 0x205f, 0x2060, 0x3000, 0x3001]

def isBlank (c : Char) : Bool :=
  blank.contains c

/-- The text from its first character that is not blank. -/
def stripStart (text : List Char) : List Char :=
  text.dropWhile isBlank

/-- The text up to its last character that is not blank. -/
def stripEnd (text : List Char) : List Char :=
  (stripStart text.reverse).reverse

/-- The text without the blanks at its two ends. -/
def strip (text : List Char) : List Char :=
  stripEnd (stripStart text)

/-- The first stretch without blanks, empty when everything is blank. -/
def firstWord (text : List Char) : List Char :=
  (stripStart text).takeWhile fun c => !isBlank c

def isAllBlank (text : String) : Bool :=
  text.toList.all isBlank

end AgentLang.Text
