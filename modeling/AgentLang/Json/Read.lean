import AgentLang.Json.Value
import AgentLang.Number.Read

/-!
# Reading JSON

The reader accepts the standard grammar and the words `NaN`, `Infinity` and `-Infinity`. A repeated
field keeps its first place and its last value. What is wrong with a text is reported with the
position where it shows.
-/

namespace AgentLang.Json

inductive Fault where
  | value
  | name
  | colon
  | comma
  | unterminated
  | control
  | escape
  | unicodeEscape
  | extra
  | byteOrderMark
  /-- A whole number with more digits than are read. -/
  | digits
  deriving DecidableEq, Repr

def Fault.message : Fault → String
  | .value => "Expecting value"
  | .name => "Expecting property name enclosed in double quotes"
  | .colon => "Expecting ':' delimiter"
  | .comma => "Expecting ',' delimiter"
  | .unterminated => "Unterminated string starting at"
  | .control => "Invalid control character at"
  | .escape => "Invalid \\escape"
  | .unicodeEscape => "Invalid \\uXXXX escape"
  | .extra => "Extra data"
  | .byteOrderMark => "Unexpected UTF-8 BOM (decode using utf-8-sig)"
  | .digits => "Exceeds the limit (4300 digits) for integer string conversion"

structure ReadError where
  fault : Fault
  pos : Nat
  deriving DecidableEq, Repr

/-- The fault with its place in the text. -/
def ReadError.describe (text : List Char) (e : ReadError) : String :=
  let before := text.take e.pos
  let line := before.count '\n' + 1
  let column := (before.reverse.takeWhile (· != '\n')).length + 1
  e.fault.message ++ ": line " ++ Nat.repr line ++ " column " ++ Nat.repr column
    ++ " (char " ++ Nat.repr e.pos ++ ")"

namespace Read

/-- A place in the text with what is left from there. -/
structure Place where
  pos : Nat
  rest : List Char

def Place.drop (p : Place) (count : Nat) : Place :=
  ⟨p.pos + count, p.rest.drop count⟩

def fail {α : Type} (fault : Fault) (pos : Nat) : Except ReadError α :=
  .error ⟨fault, pos⟩

def isSpace (c : Char) : Bool :=
  c == ' ' || c == '\t' || c == '\n' || c == '\r'

def skipSpace (p : Place) : Place :=
  p.drop (p.rest.takeWhile isSpace).length

def hexValue? (c : Char) : Option Nat :=
  if '0' ≤ c && c ≤ '9' then some (c.toNat - 0x30)
  else if 'a' ≤ c && c ≤ 'f' then some (c.toNat - 0x57)
  else if 'A' ≤ c && c ≤ 'F' then some (c.toNat - 0x37)
  else none

def hexUnit? (a b c d : Char) : Option Nat := do
  return ((← hexValue? a) * 16 + (← hexValue? b)) * 256 + (← hexValue? c) * 16 + (← hexValue? d)

def simpleEscape? : Char → Option Char
  | '"' => some '"'
  | '\\' => some '\\'
  | '/' => some '/'
  | 'b' => some '\x08'
  | 'f' => some '\x0c'
  | 'n' => some '\n'
  | 'r' => some '\r'
  | 't' => some '\t'
  | _ => none

/-- The units of a string up to its closing mark. `start` is where the string opened. -/
def units (start : Nat) : List Char → Nat → Except ReadError (List Nat × Place)
  | [], _ => fail .unterminated start
  | '"' :: rest, pos => .ok ([], ⟨pos + 1, rest⟩)
  | '\\' :: 'u' :: a :: b :: c :: d :: rest, pos =>
    match hexUnit? a b c d with
    | some unit =>
      if rest.isEmpty then fail .unicodeEscape (pos + 1)
      else do
        let (others, place) ← units start rest (pos + 6)
        return (unit :: others, place)
    | none => fail .unicodeEscape (pos + 1)
  | '\\' :: c :: rest, pos =>
    if c = 'u' then fail .unicodeEscape (pos + 1)
    else
      match simpleEscape? c with
      | some c => do
        let (others, place) ← units start rest (pos + 2)
        return (c.toNat :: others, place)
      | none => fail .escape pos
  | c :: rest, pos =>
    if c = '\\' then fail .unterminated start
    else if c.toNat < 0x20 then fail .control pos
    else do
      let (others, place) ← units start rest (pos + 1)
      return (c.toNat :: others, place)

/-- A string whose opening mark stands just before `p`. -/
def string (p : Place) : Except ReadError (Text.Loose × Place) := do
  let (units, place) ← units (p.pos - 1) p.rest p.pos
  return (.ofUnits units, place)

def digits (text : List Char) : List Char :=
  text.takeWhile Char.isDigit

def natOf (digits : List Char) : Nat :=
  digits.foldl (fun n c => n * 10 + (c.toNat - 0x30)) 0

/-- The digits behind a point, when there are any. -/
def fraction (text : List Char) : List Char :=
  match text with
  | '.' :: rest => digits rest
  | _ => []

/-- The sign, digits and length of an exponent. -/
def exponent? (text : List Char) : Option (Bool × List Char × Nat) :=
  match text with
  | mark :: rest =>
    if mark = 'e' || mark = 'E' then
      let (negative, signs, rest) := match rest with
        | '-' :: rest => (true, 1, rest)
        | '+' :: rest => (false, 1, rest)
        | rest => (false, 0, rest)
      let ds := digits rest
      if ds.isEmpty then none else some (negative, ds, 1 + signs + ds.length)
    else none
  | [] => none

/-- A number whose sign, if any, has been read. -/
def number (negative : Bool) (start : Nat) (p : Place) : Except ReadError (LooseJson × Place) :=
  let whole := match p.rest with
    | '0' :: _ => ['0']
    | text => digits text
  if whole.isEmpty then fail .value start
  else
    let p := p.drop whole.length
    let part := fraction p.rest
    let p := if part.isEmpty then p else p.drop (part.length + 1)
    match part.isEmpty, exponent? p.rest with
    | true, none =>
      if Number.mostDigits < whole.length then fail .digits start
      else .ok (.int (if negative then -(natOf whole : Int) else natOf whole), p)
    | _, power =>
      let (shift, length) : Int × Nat := match power with
        | some (down, ds, length) => ((if down then -(natOf ds : Int) else natOf ds), length)
        | none => (0, 0)
      let value := Number.Binary64.ofDecimal negative (natOf (whole ++ part)) (shift - part.length)
      .ok (.float value, p.drop length)

def startsWith (p : Place) (word : String) : Bool :=
  word.toList.isPrefixOf p.rest

/-- A value that is not a container. -/
def scalar (p : Place) : Except ReadError (LooseJson × Place) :=
  match p.rest with
  | '"' :: rest => do
    let (text, place) ← string ⟨p.pos + 1, rest⟩
    return (.string text, place)
  | '-' :: rest =>
    if startsWith p "-Infinity" then .ok (.float (.infinite true), p.drop 9)
    else number true p.pos ⟨p.pos + 1, rest⟩
  | _ =>
    if startsWith p "null" then .ok (.null, p.drop 4)
    else if startsWith p "true" then .ok (.bool true, p.drop 4)
    else if startsWith p "false" then .ok (.bool false, p.drop 5)
    else if startsWith p "NaN" then .ok (.float .nan, p.drop 3)
    else if startsWith p "Infinity" then .ok (.float (.infinite false), p.drop 8)
    else number false p.pos p

mutual

def value : (fuel : Nat) → Place → Except ReadError (LooseJson × Place)
  | 0, p => fail .value p.pos
  | fuel + 1, p =>
    match p.rest with
    | '[' :: rest =>
      let p := skipSpace ⟨p.pos + 1, rest⟩
      match p.rest with
      | ']' :: rest => .ok (.array [], ⟨p.pos + 1, rest⟩)
      | _ => do
        let (items, p) ← items fuel p
        return (.array items, p)
    | '\x7b' :: rest =>
      let p := skipSpace ⟨p.pos + 1, rest⟩
      match p.rest with
      | '\x7d' :: rest => .ok (.object [], ⟨p.pos + 1, rest⟩)
      | _ => do
        let (fields, p) ← fields fuel p []
        return (.object fields, p)
    | _ => scalar p

/-- Items up to the closing bracket, at least one. -/
def items : (fuel : Nat) → Place → Except ReadError (List LooseJson × Place)
  | 0, p => fail .value p.pos
  | fuel + 1, p => do
    let (item, p) ← value fuel p
    let p := skipSpace p
    match p.rest with
    | ']' :: rest => return ([item], ⟨p.pos + 1, rest⟩)
    | ',' :: rest =>
      let (others, p) ← items fuel (skipSpace ⟨p.pos + 1, rest⟩)
      return (item :: others, p)
    | _ => fail .comma p.pos

/-- Fields up to the closing brace, at least one, set on top of `known`. -/
def fields : (fuel : Nat) → Place → (known : List (Text.Loose × LooseJson)) →
    Except ReadError (List (Text.Loose × LooseJson) × Place)
  | 0, p, _ => fail .value p.pos
  | fuel + 1, p, known =>
    match p.rest with
    | '"' :: rest => do
      let (name, p) ← string ⟨p.pos + 1, rest⟩
      let p := skipSpace p
      match p.rest with
      | ':' :: rest =>
        let (item, p) ← value fuel (skipSpace ⟨p.pos + 1, rest⟩)
        let known := JsonOf.setField name item known
        let p := skipSpace p
        match p.rest with
        | '\x7d' :: rest => return (known, ⟨p.pos + 1, rest⟩)
        | ',' :: rest => fields fuel (skipSpace ⟨p.pos + 1, rest⟩) known
        | _ => fail .comma p.pos
      | _ => fail .colon p.pos
    | _ => fail .name p.pos

end

end Read

/-- The value that a text denotes. -/
def read (text : List Char) : Except ReadError LooseJson :=
  if text.head? = some '\ufeff' then Read.fail .byteOrderMark 0
  else do
    let (json, p) ← Read.value (2 * text.length + 2) (Read.skipSpace ⟨0, text⟩)
    let p := Read.skipSpace p
    if p.rest.isEmpty then return json else Read.fail .extra p.pos

end AgentLang.Json
