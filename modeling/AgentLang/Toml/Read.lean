import AgentLang.Number.Read
import AgentLang.Toml.Document

/-!
# Reading configuration files

The reader works on what is left of the text. Values nest, so reading them takes fuel, and a text
never nests deeper than it is long.
-/

namespace AgentLang.Toml

inductive Fault where
  | invalid
  /-- A whole number with more digits than are read. -/
  | digits
  deriving DecidableEq, Repr

abbrev Reader := StateT (List Char) (Except Fault)

namespace Reader

def refuse {α : Type} : Reader α := throw .invalid

def orRefuse {α : Type} : Option α → Reader α
  | some value => pure value
  | none => refuse

def peek : Reader (Option Char) := return (← get).head?

def advance (count : Nat) : Reader Unit := modify (·.drop count)

def takeWhile (p : Char → Bool) : Reader (List Char) :=
  modifyGet fun text => (text.takeWhile p, text.dropWhile p)

def skipWhile (p : Char → Bool) : Reader Unit := modify (·.dropWhile p)

/-- Whether the given text comes next, which is then passed. -/
def passes (expected : String) : Reader Bool := do
  let chars := expected.toList
  if chars.isPrefixOf (← get) then
    advance chars.length
    return true
  else
    return false

def expect (expected : String) : Reader Unit := do
  if !(← passes expected) then refuse

/-- Reads with a scanner that says what is left. -/
def scan? {α : Type} (scanner : List Char → Option (α × List Char)) : Reader (Option α) := do
  match scanner (← get) with
  | some (value, rest) => do
    set rest
    return some value
  | none => return none

end Reader

open Reader

/-! ### Characters -/

def isSpace (c : Char) : Bool := c == ' ' || c == '\t'

def isSpaceOrLineEnd (c : Char) : Bool := isSpace c || c == '\n'

/-- Control characters, apart from the tabulator. -/
def isControl (c : Char) : Bool := (c < ' ' && c != '\t') || c == '\x7f'

def isBare (c : Char) : Bool := c.isAlphanum || c == '-' || c == '_'

def isHex (c : Char) : Bool := c.isDigit || ('a' ≤ c && c ≤ 'f') || ('A' ≤ c && c ≤ 'F')

def hexValue (c : Char) : Nat :=
  if c.isDigit then c.toNat - '0'.toNat
  else if 'a' ≤ c then c.toNat - 'a'.toNat + 10
  else c.toNat - 'A'.toNat + 10

def natOfDigits (base : Nat) (digits : List Char) : Nat :=
  digits.foldl (fun n digit => n * base + hexValue digit) 0

/-- Passes a comment, if there is one. -/
def skipComment : Reader Unit := do
  if (← peek) == some '#' then
    if (← takeWhile (· != '\n')).any isControl then refuse

/-- Passes blanks, line ends and comments. -/
def skipFiller : Nat → Reader Unit
  | 0 => return ()
  | fuel + 1 => do
    let before := (← get).length
    skipWhile isSpaceOrLineEnd
    skipComment
    if (← get).length < before then skipFiller fuel

/-! ### Numbers and times -/

/-- Digits behind the first one, with single underscores between them. -/
def moreDigits (isDigit : Char → Bool) : List Char → List Char × List Char
  | '_' :: c :: rest =>
    if isDigit c then
      let (digits, rest) := moreDigits isDigit rest
      (c :: digits, rest)
    else ([], '_' :: c :: rest)
  | c :: rest =>
    if isDigit c then
      let (digits, rest) := moreDigits isDigit rest
      (c :: digits, rest)
    else ([], c :: rest)
  | [] => ([], [])

def digitGroup? (isDigit : Char → Bool) : List Char → Option (List Char × List Char)
  | c :: rest =>
    if isDigit c then
      let (digits, rest) := moreDigits isDigit rest
      some (c :: digits, rest)
    else none
  | [] => none

/-- The number of digits in a base, with what is left of the text. -/
def inBase (base : Nat) (found : Option (List Char × List Char)) : Option (Nat × List Char) :=
  found.map fun (digits, rest) => (natOfDigits base digits, rest)

/-- A whole number in a base that is a power of two. -/
def based? : List Char → Option (Nat × List Char)
  | '0' :: 'x' :: rest => inBase 16 (digitGroup? isHex rest)
  | '0' :: 'b' :: rest => inBase 2 (digitGroup? (fun c => c == '0' || c == '1') rest)
  | '0' :: 'o' :: rest => inBase 8 (digitGroup? (fun c => '0' ≤ c && c ≤ '7') rest)
  | _ => none

/-- A number in base ten: its sign, its digits, and the parts that make it a floating-point one. -/
structure Decimal where
  negative : Bool
  whole : List Char
  fraction : Option (List Char)
  exponent : Option Int

def whole? : List Char → Option (List Char × List Char)
  | '0' :: rest => some (['0'], rest)
  | rest => digitGroup? Char.isDigit rest

def fraction : List Char → Option (List Char) × List Char
  | '.' :: rest =>
    match digitGroup? Char.isDigit rest with
    | some (digits, rest) => (some digits, rest)
    | none => (none, '.' :: rest)
  | rest => (none, rest)

def exponent (text : List Char) : Option Int × List Char :=
  match text with
  | c :: rest =>
    if c == 'e' || c == 'E' then
      let (negative, rest) := Number.Constant.signed rest
      match digitGroup? Char.isDigit rest with
      | some (digits, rest) =>
        let size : Int := natOfDigits 10 digits
        (some (if negative then -size else size), rest)
      | none => (none, text)
    else (none, text)
  | [] => (none, [])

def decimal? (text : List Char) : Option (Decimal × List Char) := do
  let (negative, text) := Number.Constant.signed text
  let (whole, text) ← whole? text
  let (fraction, text) := fraction text
  let (exponent, text) := exponent text
  return (⟨negative, whole, fraction, exponent⟩, text)

def Decimal.value (d : Decimal) : Except Fault Toml :=
  if d.fraction.isSome || d.exponent.isSome then
    let fraction := d.fraction.getD []
    .ok (.float (.ofDecimal d.negative (natOfDigits 10 (d.whole ++ fraction))
      (d.exponent.getD 0 - fraction.length)))
  else if Number.mostDigits < d.whole.length then .error .digits
  else
    let size : Int := natOfDigits 10 d.whole
    .ok (.int (if d.negative then -size else size))

/-- A number of exactly so many digits. -/
def fixed? (count : Nat) (text : List Char) : Option (Nat × List Char) :=
  let digits := text.take count
  if digits.length = count && digits.all Char.isDigit then
    some (natOfDigits 10 digits, text.drop count)
  else none

def mark? (c : Char) : List Char → Option (List Char)
  | first :: rest => if first = c then some rest else none
  | [] => none

/-- Digits behind a point, as millionths. Those behind the sixth are dropped. -/
def micros : List Char → Nat × List Char
  | '.' :: rest =>
    let digits := rest.takeWhile Char.isDigit
    if digits.isEmpty then (0, '.' :: rest)
    else
      let kept := digits.take 6
      (natOfDigits 10 (kept ++ List.replicate (6 - kept.length) '0'), rest.drop digits.length)
  | rest => (0, rest)

def hourAndMinute? (text : List Char) : Option ((Nat × Nat) × List Char) := do
  let (hour, text) ← fixed? 2 text
  let text ← mark? ':' text
  let (minute, text) ← fixed? 2 text
  if hour < 24 && minute < 60 then return ((hour, minute), text) else none

def clock? (text : List Char) : Option (Clock × List Char) := do
  let ((hour, minute), text) ← hourAndMinute? text
  let text ← mark? ':' text
  let (second, text) ← fixed? 2 text
  let (micro, text) := micros text
  if second < 60 then return (⟨hour, minute, second, micro⟩, text) else none

/-- The offset from universal time in minutes, if one is given. -/
def offset (text : List Char) : Option Int × List Char :=
  match text with
  | c :: rest =>
    if c == 'Z' || c == 'z' then (some 0, rest)
    else if c == '+' || c == '-' then
      match hourAndMinute? rest with
      | some ((hour, minute), rest) =>
        let size : Int := hour * 60 + minute
        (some (if c == '-' then -size else size), rest)
      | none => (none, text)
    else (none, text)
  | [] => (none, [])

/-- A day with or without a time. The day need not exist. -/
def date? (text : List Char) : Option (Moment × List Char) := do
  let (year, text) ← fixed? 4 text
  let text ← mark? '-' text
  let (month, text) ← fixed? 2 text
  let text ← mark? '-' text
  let (day, text) ← fixed? 2 text
  if month = 0 || 12 < month || day = 0 || 31 < day then none
  let timed : Option (Clock × List Char) := match text with
    | c :: rest => if c == 'T' || c == 't' || c == ' ' then clock? rest else none
    | [] => none
  match timed with
  | some (clock, text) =>
    let (offset, text) := offset text
    return (.instant ⟨year, month, day⟩ clock offset, text)
  | none => return (.day ⟨year, month, day⟩, text)

/-- Whether the day of a moment exists. -/
def hasDay : Moment → Bool
  | .day d => d.isValid
  | .instant d _ _ => d.isValid
  | .clock _ => true

/-- Numbers that are not finite. -/
def special? (text : List Char) : Option (Number.Binary64 × List Char) :=
  let (negative, rest) := Number.Constant.signed text
  match rest with
  | 'i' :: 'n' :: 'f' :: rest => some (.infinite negative, rest)
  | 'n' :: 'a' :: 'n' :: rest => some (.nan, rest)
  | _ => none

/-! ### Strings -/

def hexEscape (count : Nat) : Reader Char := do
  let digits := (← get).take count
  if digits.length = count && digits.all isHex then
    let code := natOfDigits 16 digits
    if code < 0xD800 || (0xDFFF < code && code < 0x110000) then
      advance count
      return Char.ofNat code
    else refuse
  else refuse

/-- The character behind a backslash. -/
def escape : Reader Char := do
  let c ← orRefuse (← peek)
  advance 1
  match c with
  | 'b' => return '\x08'
  | 't' => return '\t'
  | 'n' => return '\n'
  | 'f' => return '\x0c'
  | 'r' => return '\r'
  | '"' => return '"'
  | '\\' => return '\\'
  | 'u' => hexEscape 4
  | 'U' => hexEscape 8
  | _ => refuse

/-- The rest of a string on one line. `done` holds the characters so far, the last first. -/
def basicLine : Nat → List Char → Reader String
  | 0, _ => refuse
  | fuel + 1, done => do
    let c ← orRefuse (← peek)
    advance 1
    if c = '"' then return String.ofList done.reverse
    else if c = '\\' then basicLine fuel ((← escape) :: done)
    else if isControl c then refuse
    else basicLine fuel (c :: done)

/-- Passes a line end behind a backslash with all blanks and line ends behind it. -/
def skipLineEnd : Reader Unit := do
  skipWhile isSpace
  match ← peek with
  | none => return ()
  | some c => if c = '\n' then skipWhile isSpaceOrLineEnd else refuse

/-- The rest of a string over several lines, up to the marks that close it. -/
def basicLines : Nat → List Char → Reader (List Char)
  | 0, _ => refuse
  | fuel + 1, done => do
    if ← passes "\"\"\"" then return done.reverse
    let c ← orRefuse (← peek)
    advance 1
    if c = '\\' then
      if (← peek).any isSpaceOrLineEnd then
        skipLineEnd
        basicLines fuel done
      else
        basicLines fuel ((← escape) :: done)
    else if isControl c && c != '\n' then refuse
    else basicLines fuel (c :: done)

/-- The text up to a mark, which is passed. -/
def literalUntil (mark : String) (allowLineEnds : Bool) : Nat → List Char → Reader (List Char)
  | 0, _ => refuse
  | fuel + 1, done => do
    if ← passes mark then return done.reverse
    let c ← orRefuse (← peek)
    advance 1
    if isControl c && !(allowLineEnds && c = '\n') then refuse
    else literalUntil mark allowLineEnds fuel (c :: done)

/-- Up to two more marks before the closing ones belong to the string. -/
def closingMarks (mark : Char) : Reader (List Char) := do
  let extra := ((← get).take 2).takeWhile (· == mark)
  advance extra.length
  return extra

/-- How often a reader of strings can go on. -/
def stringFuel : Reader Nat := return (← get).length + 1

def basicString : Reader String := do
  expect "\""
  basicLine (← stringFuel) []

def literalString : Reader String := do
  expect "'"
  return String.ofList (← literalUntil "'" false (← stringFuel) [])

def multilineBasic : Reader String := do
  let _ ← passes "\n"
  let body ← basicLines (← stringFuel) []
  return String.ofList (body ++ (← closingMarks '"'))

def multilineLiteral : Reader String := do
  let _ ← passes "\n"
  let body ← literalUntil "'''" true (← stringFuel) []
  return String.ofList (body ++ (← closingMarks '\''))

/-! ### Keys and values -/

def keyPart : Reader String := do
  match ← peek with
  | some '"' => basicString
  | some '\'' => literalString
  | some c => if isBare c then return String.ofList (← takeWhile isBare) else refuse
  | none => refuse

/-- The parts of a dotted key behind the first. -/
def keyParts : Nat → Reader KeyPath
  | 0 => refuse
  | fuel + 1 => do
    skipWhile isSpace
    if ← passes "." then
      skipWhile isSpace
      let part ← keyPart
      return part :: (← keyParts fuel)
    else
      return []

def keyPath : Reader KeyPath := do
  let first ← keyPart
  return first :: (← keyParts (← stringFuel))

/-- A value that holds no other. -/
def plainValue : Reader Toml := do
  if ← passes "\"\"\"" then return .string (← multilineBasic)
  if ← passes "'''" then return .string (← multilineLiteral)
  if (← peek) == some '"' then return .string (← basicString)
  if (← peek) == some '\'' then return .string (← literalString)
  if ← passes "true" then return .bool true
  if ← passes "false" then return .bool false
  if let some date ← scan? date? then
    if hasDay date then return .moment date else refuse
  if let some clock ← scan? clock? then return .moment (.clock clock)
  if let some value ← scan? based? then return .int value
  if let some decimal ← scan? decimal? then
    match decimal.value with
    | .ok value => return value
    | .error fault => throw fault
  if let some value ← scan? special? then return .float value
  refuse

mutual

def value : Nat → Reader Toml
  | 0 => refuse
  | fuel + 1 => do
    if ← passes "[" then
      skipFiller (← stringFuel)
      if ← passes "]" then return .array []
      return .array (← items fuel)
    else if ← passes "\x7b" then
      skipWhile isSpace
      if ← passes "\x7d" then return .table []
      return .table (← inlineEntries fuel {}).entries
    else
      plainValue

/-- The items of an array up to its end. A comma may follow the last one. -/
def items : Nat → Reader (List Toml)
  | 0 => refuse
  | fuel + 1 => do
    let first ← value fuel
    skipFiller (← stringFuel)
    if ← passes "]" then return [first]
    expect ","
    skipFiller (← stringFuel)
    if ← passes "]" then return [first]
    return first :: (← items fuel)

/-- The entries of an inline table up to its end. -/
def inlineEntries : Nat → Inline → Reader Inline
  | 0, _ => refuse
  | fuel + 1, inline => do
    let (path, entry) ← keyValue fuel
    let next ← orRefuse (inline.add path entry)
    skipWhile isSpace
    if ← passes "\x7d" then return next
    expect ","
    skipWhile isSpace
    inlineEntries fuel next

def keyValue : Nat → Reader (KeyPath × Toml)
  | 0 => refuse
  | fuel + 1 => do
    let path ← keyPath
    expect "="
    skipWhile isSpace
    return (path, ← value fuel)

end

/-! ### Documents -/

def header (document : Document) : Reader Document := do
  let isItem ← passes "[["
  if !isItem then expect "["
  skipWhile isSpace
  let path ← keyPath
  if isItem then
    let next ← orRefuse (document.openListItem path)
    expect "]]"
    return next
  else
    let next ← orRefuse (document.openTable path)
    expect "]"
    return next

/-- Statements up to the end of the text, one on a line. -/
def statements : Nat → Document → Reader Document
  | 0, _ => refuse
  | fuel + 1, document => do
    skipWhile isSpace
    match ← peek with
    | none => return document
    | some c =>
      let document ←
        if c = '[' then header document
        else if isBare c || c = '"' || c = '\'' then do
          let (path, entry) ← keyValue (2 * (← stringFuel))
          orRefuse (document.add path entry)
        else if c = '#' || c = '\n' then pure document
        else refuse
      skipWhile isSpace
      skipComment
      if (← get).isEmpty then return document
      expect "\n"
      statements fuel document

/-- The entries of a configuration file. -/
def read (text : List Char) : Except Fault Entries :=
  (statements (text.length + 2) {} |>.run' text).map (·.entries)

end AgentLang.Toml
