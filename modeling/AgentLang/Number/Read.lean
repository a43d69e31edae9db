import AgentLang.Number.Binary64
import AgentLang.Text.Blank
import AgentLang.Text.Digit
import AgentLang.Text.Lines

/-!
# Reading numbers

Whole numbers and decimal fractions from text: digits of any script, single underscores between
digits, a sign, and blanks around everything.
-/

namespace AgentLang.Number

/-- The most digits of a whole number, where it is read and where it is written. -/
def mostDigits : Nat := 4300

/-- A number with too many digits to be written. -/
def isLong (n : Int) : Bool := Nat.pow 10 mostDigits ≤ n.natAbs

inductive Constant where
  | int (value : Int)
  | float (value : Binary64)
  deriving DecidableEq, Repr

namespace Constant

/-- Blanks that may surround a number. Unlike elsewhere, the separators of the control characters
are not among them. -/
def isMargin (c : Char) : Bool :=
  Text.isBlank c && !('\x1c' ≤ c && c ≤ '\x1f')

def unmargined (text : List Char) : List Char :=
  ((text.dropWhile isMargin).reverse.dropWhile isMargin).reverse

def signed (text : List Char) : Bool × List Char :=
  match text with
  | '-' :: rest => (true, rest)
  | '+' :: rest => (false, rest)
  | _ => (false, text)

/-- The digits of groups that single underscores divide. -/
def digits? (text : List Char) : Option (List Nat) := do
  let groups ← (Text.splitAt '_' text).mapM fun group =>
    if group.isEmpty then none else group.mapM Text.digitValue?
  return groups.flatten

/-- Digits that may also be absent. -/
def digitsOrNone? (text : List Char) : Option (List Nat) :=
  if text.isEmpty then some [] else digits? text

def natOf (digits : List Nat) : Nat :=
  digits.foldl (fun n digit => n * 10 + digit) 0

def int? (text : List Char) : Option Int := do
  let (negative, text) := signed (unmargined text)
  let digits ← digits? text
  if mostDigits < digits.length then none
  else return if negative then -(natOf digits : Int) else natOf digits

/-- The exponent behind its mark. -/
def exponent? (text : List Char) : Option Int := do
  let (negative, text) := signed text
  let digits ← digits? text
  return if negative then -(natOf digits : Int) else natOf digits

def float? (text : List Char) : Option Binary64 := do
  let (negative, text) := signed (unmargined text)
  let isMark (c : Char) : Bool := c == 'e' || c == 'E'
  let mantissa := text.takeWhile (!isMark ·)
  let exponent ← match text.dropWhile (!isMark ·) with
    | [] => some 0
    | _ :: rest => exponent? rest
  let (whole, fraction) ← match Text.splitAt '.' mantissa with
    | [whole] => some (whole, [])
    | [whole, fraction] => some (whole, fraction)
    | _ => none
  let whole ← digitsOrNone? whole
  let fraction ← digitsOrNone? fraction
  if whole.isEmpty && fraction.isEmpty then none
  else return .ofDecimal negative (natOf (whole ++ fraction)) (exponent - fraction.length)

/-- The number that a text denotes. A point makes it a floating-point number. -/
def ofText? (text : String) : Option Constant :=
  if text.toList.contains '.' then (float? text.toList).map .float
  else (int? text.toList).map .int

end Constant
end AgentLang.Number
