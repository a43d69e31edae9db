import AgentLang.Text.Quoted

/-!
# Loose text

A character beyond the first plane may be written as two halves. A loose text is one in which a half
may stand without the other.
-/

namespace AgentLang.Text

/-- A character, or a half that stands alone. -/
inductive CodePoint where
  | char (c : Char)
  | half (unit : Nat)
  deriving DecidableEq, Repr

namespace CodePoint

def char? : CodePoint → Option Char
  | .char c => some c
  | .half _ => none

/-- The point in the plain quoted form, where a half is always escaped. -/
def escape (mark : Char) : CodePoint → List Char
  | .char c => Plain.escape mark c
  | .half unit => '\\' :: 'u' :: hex 4 unit

end CodePoint

abbrev Loose := List CodePoint

namespace Loose

def ofString (text : String) : Loose := text.toList.map .char

/-- The text with a replacement character for each half. -/
def toWhole (text : Loose) : String :=
  String.ofList (text.map fun point => point.char?.getD '\ufffd')

def isHigh (unit : Nat) : Bool := 0xd800 ≤ unit && unit < 0xdc00

def isLow (unit : Nat) : Bool := 0xdc00 ≤ unit && unit < 0xe000

/-- The character of two halves. -/
def joined (high low : Nat) : Char :=
  Char.ofNat (0x10000 + (high - 0xd800) * 0x400 + (low - 0xdc00))

/-- A number that is a whole character or a half. -/
def single (unit : Nat) : CodePoint :=
  if isHigh unit || isLow unit then .half unit else .char (Char.ofNat unit)

/-- Joins the halves that follow each other. -/
def ofUnits : List Nat → Loose
  | [] => []
  | high :: low :: rest =>
    if isHigh high && isLow low then .char (joined high low) :: ofUnits rest
    else single high :: ofUnits (low :: rest)
  | [unit] => [single unit]

/-- The plain quoted form. -/
def quotePlain (text : Loose) : String :=
  let mark := Plain.mark (text.filterMap CodePoint.char?)
  String.ofList (mark :: text.flatMap (CodePoint.escape mark) ++ [mark])

end Loose
end AgentLang.Text
