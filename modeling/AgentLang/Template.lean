import AgentLang.Json.Literal
import AgentLang.Text.Blank
import AgentLang.Text.Identifier
import AgentLang.Text.Lines

/-!
# Templates

Text with markers and sections. A marker prints the argument of its name. A section prints the first
of its parts whose test holds; an argument that is not given counts as false there, while a marker
without an argument is an error. A tag that stands alone on its line leaves no line behind: blanks
before it and the line end behind it are dropped.
-/

namespace AgentLang

/-- Whether an argument is true, or whether it is not. -/
structure SectionTest where
  name : String
  negated : Bool
  deriving DecidableEq, Repr

inductive TemplatePiece where
  | text (value : String)
  | marker (name : String)
  | select (parts : List (SectionTest × List TemplatePiece)) (otherwise : List TemplatePiece)
  deriving Repr

abbrev Template := List TemplatePiece

inductive TemplateError where
  | invalid
  | missing (name : String)
  deriving DecidableEq, Repr

def TemplateError.message : TemplateError → String
  | .invalid => "Invalid template"
  | .missing name => "Template argument missing: '" ++ name ++ "' is undefined"

namespace Template

abbrev Arguments := List (String × Json)

/-! ### Filling -/

def holds (arguments : Arguments) (test : SectionTest) : Bool :=
  ((arguments.lookup test.name).any Json.truth) != test.negated

mutual

/-- The text with all markers replaced. Nothing stands for a marker without an argument. -/
def fill (arguments : Arguments) : Template → String
  | [] => ""
  | piece :: rest => fillPiece arguments piece ++ fill arguments rest

def fillPiece (arguments : Arguments) : TemplatePiece → String
  | .text value => value
  | .marker name => ((arguments.lookup name).map Json.display).getD ""
  | .select parts otherwise => (fillParts arguments parts).getD (fill arguments otherwise)

/-- The first part whose test holds. -/
def fillParts (arguments : Arguments) : List (SectionTest × Template) → Option String
  | [] => none
  | (test, body) :: parts =>
    if holds arguments test then some (fill arguments body) else fillParts arguments parts

end

mutual

/-- The first printed marker that has no argument. -/
def missing? (arguments : Arguments) : Template → Option String
  | [] => none
  | piece :: rest => (missingInPiece? arguments piece).or (missing? arguments rest)

def missingInPiece? (arguments : Arguments) : TemplatePiece → Option String
  | .text _ => none
  | .marker name => if (arguments.lookup name).isSome then none else some name
  | .select parts otherwise =>
    (missingInParts? arguments parts).getD (missing? arguments otherwise)

/-- The first missing marker of the part that is printed, if one is printed. -/
def missingInParts? (arguments : Arguments) :
    List (SectionTest × Template) → Option (Option String)
  | [] => none
  | (test, body) :: parts =>
    if holds arguments test then some (missing? arguments body) else missingInParts? arguments parts

end

/-- The filled text, if every printed marker has an argument. -/
def render (template : Template) (arguments : Arguments) : Except TemplateError String :=
  match missing? arguments template with
  | some name => .error (.missing name)
  | none => .ok (fill arguments template)

/-! ### Reading -/

inductive Token where
  | text (value : List Char)
  | marker (name : String)
  | opening (test : SectionTest)
  | another (test : SectionTest)
  | otherwise
  | closing

/-- The words between blanks. -/
def wordsOf (chars : List Char) : List String :=
  let step (c : Char) (words : List (List Char)) : List (List Char) :=
    if Text.isBlank c then [] :: words
    else
      match words with
      | [] => [[c]]
      | word :: others => (c :: word) :: others
  ((chars.foldr step [[]]).filter (!·.isEmpty)).map String.ofList

def marker? (chars : List Char) : Option Token :=
  match wordsOf chars with
  | [name] => if Text.isIdentifier name then some (.marker name) else none
  | _ => none

def test? : List String → Option SectionTest
  | [name] => if Text.isIdentifier name && name != "not" then some ⟨name, false⟩ else none
  | ["not", name] => if Text.isIdentifier name then some ⟨name, true⟩ else none
  | _ => none

def tag? (chars : List Char) : Option Token :=
  match wordsOf chars with
  | "if" :: test => (test? test).map .opening
  | "elif" :: test => (test? test).map .another
  | ["else"] => some .otherwise
  | ["endif"] => some .closing
  | _ => none

/-- Text before a tag, without the blanks between its last line end and the tag. -/
def beforeTag (lineStart : Bool) (text : List Char) : List Char :=
  let (tail, before) := (text.reverse.takeWhile (· != '\n'), text.reverse.dropWhile (· != '\n'))
  if (lineStart || !before.isEmpty) && tail.all Text.isBlank then before.reverse else text

def textToken (text : List Char) (tokens : List Token) : List Token :=
  if text.isEmpty then tokens else .text text :: tokens

mutual

/-- Tokens of a text. `pending` is the text read so far, the last character first. -/
def scan : List Char → (pending : List Char) → (lineStart : Bool) → Option (List Token)
  | [], pending, _ => some (textToken pending.reverse [])
  | '\x7b' :: '%' :: rest, pending, lineStart => do
    return textToken (beforeTag lineStart pending.reverse) (← scanTag rest [])
  | '\x7b' :: '\x7b' :: rest, pending, _ => do
    return textToken pending.reverse (← scanMarker rest [])
  | c :: rest, pending, lineStart => scan rest (c :: pending) lineStart

def scanTag : List Char → (pending : List Char) → Option (List Token)
  | [], _ => none
  | '%' :: '\x7d' :: '\n' :: rest, pending => do
    return (← tag? pending.reverse) :: (← scan rest [] true)
  | '%' :: '\x7d' :: rest, pending => do
    return (← tag? pending.reverse) :: (← scan rest [] false)
  | c :: rest, pending => scanTag rest (c :: pending)

def scanMarker : List Char → (pending : List Char) → Option (List Token)
  | [], _ => none
  | '\x7d' :: '\x7d' :: rest, pending => do
    return (← marker? pending.reverse) :: (← scan rest [] false)
  | c :: rest, pending => scanMarker rest (c :: pending)

end

/-- A section that is not closed yet. -/
structure Open where
  /-- The pieces before the section, the last first. -/
  before : List TemplatePiece
  parts : List (SectionTest × Template)
  /-- The test of the part under way, or none behind `else`. -/
  test : Option SectionTest

/-- Pieces of tokens. `pieces` are those of the innermost part, the last first. -/
def build : List Token → (pieces : List TemplatePiece) → (opened : List Open) → Option Template
  | [], pieces, [] => some pieces.reverse
  | [], _, _ :: _ => none
  | .text value :: rest, pieces, opened => build rest (.text (String.ofList value) :: pieces) opened
  | .marker name :: rest, pieces, opened => build rest (.marker name :: pieces) opened
  | .opening test :: rest, pieces, opened => build rest [] (⟨pieces, [], some test⟩ :: opened)
  | .another test :: rest, pieces, ⟨before, parts, some last⟩ :: opened =>
    build rest [] (⟨before, parts ++ [(last, pieces.reverse)], some test⟩ :: opened)
  | .otherwise :: rest, pieces, ⟨before, parts, some last⟩ :: opened =>
    build rest [] (⟨before, parts ++ [(last, pieces.reverse)], none⟩ :: opened)
  | .closing :: rest, pieces, ⟨before, parts, some last⟩ :: opened =>
    build rest (.select (parts ++ [(last, pieces.reverse)]) [] :: before) opened
  | .closing :: rest, pieces, ⟨before, parts, none⟩ :: opened =>
    build rest (.select parts pieces.reverse :: before) opened
  | _ :: _, _, _ => none

/-- The template that a text describes. -/
def ofText? (text : String) : Option Template := do
  build (← scan (Text.unifyLineEnds text.toList) [] true) [] []

end Template

/-- Reads a template and fills it. -/
def renderText (template : String) (arguments : Template.Arguments) : Except TemplateError String :=
  match Template.ofText? template with
  | none => .error .invalid
  | some template => template.render arguments

end AgentLang
