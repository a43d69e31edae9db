import AgentLang.Number.Binary64

/-!
# Shortest decimal text

The text of a floating-point number has the fewest digits that read back as the number, and of those
the digits nearest to it. It is positional for decimal exponents from -4 to 15 and scientific
otherwise.
-/

namespace AgentLang.Number

/-- The number `digits * 10 ^ exponent`. -/
structure Decimal where
  digits : Nat
  exponent : Int
  deriving DecidableEq, Repr

namespace Shortest

/-- How many places the quotient must move left to reach one, at most `bound`. -/
def placesBelowOne (num den : Nat) : (bound : Nat) → Nat
  | 0 => 0
  | bound + 1 => if den ≤ num then 0 else placesBelowOne (num * 10) den bound + 1

/-- The power of ten just above a positive quotient. -/
def magnitude (num den : Nat) : Int :=
  if den ≤ num then (Nat.toDigits 10 (num / den)).length
  else 1 - (placesBelowOne num den 400 : Int)

/-- The quotient divided by `10 ^ exponent`. -/
def onGrid (num den : Nat) (exponent : Int) : Nat × Nat :=
  if exponent < 0 then (num * Nat.pow 10 (-exponent).toNat, den)
  else (num, den * Nat.pow 10 exponent.toNat)

/-- The nearest decimal with a given exponent that reads back as `target`. -/
def onGrid? (target : Binary64) (num den : Nat) (exponent : Int) : Option Decimal :=
  let (n, d) := onGrid num den exponent
  let below := n / d
  let rest := n % d
  let hits (digits : Nat) : Bool := Binary64.ofDecimal false digits exponent == target
  let nearerBelow := 2 * rest < d || (2 * rest == d && below % 2 == 0)
  match hits below, hits (below + 1) with
  | true, true => some ⟨if nearerBelow then below else below + 1, exponent⟩
  | true, false => some ⟨below, exponent⟩
  | false, true => some ⟨below + 1, exponent⟩
  | false, false => none

/-- Tries one digit more at a time. -/
def search (target : Binary64) (num den : Nat) : (tries : Nat) → (exponent : Int) → Decimal
  | 0, exponent => ⟨(onGrid num den exponent).1 / (onGrid num den exponent).2, exponent⟩
  | tries + 1, exponent =>
    match onGrid? target num den exponent with
    | some decimal => decimal
    | none => search target num den tries (exponent - 1)

end Shortest

/-- The shortest decimal that reads back as `mantissa * 2 ^ exponent`. -/
def shortest (mantissa : Nat) (exponent : Int) : Decimal :=
  let (num, den) := if exponent < 0 then (mantissa, Nat.pow 2 (-exponent).toNat)
    else (mantissa * Nat.pow 2 exponent.toNat, 1)
  Shortest.search (.finite false mantissa exponent) num den 17 (Shortest.magnitude num den - 1)

/-- Where positional notation ends and how exponents are written. -/
structure NumberStyle where
  /-- The least power of ten above the number that is still positional. -/
  least : Int
  /-- The greatest power of ten above the number that is still positional. -/
  greatest : Int
  /-- The least number of digits of an exponent. -/
  exponentWidth : Nat

/-- Positional from `1e-4` up to, and not including, `1e16`; exponents have two digits or more. -/
def floatStyle : NumberStyle := ⟨-3, 16, 2⟩

def zeros (count : Nat) : String := String.ofList (List.replicate count '0')

/-- The digits without zeros at their end. -/
def significant (digits : Nat) : List Char :=
  ((Nat.toDigits 10 digits).reverse.dropWhile (· == '0')).reverse

/-- A decimal in a given style. -/
def Decimal.toText (style : NumberStyle) (d : Decimal) : String :=
  let point : Int := (Nat.toDigits 10 d.digits).length + d.exponent
  let digits := significant d.digits
  if style.least ≤ point && point ≤ style.greatest then
    if point ≤ 0 then
      "0." ++ zeros (-point).toNat ++ String.ofList digits
    else if digits.length ≤ point then
      String.ofList digits ++ zeros (point - digits.length).toNat ++ ".0"
    else
      String.ofList (digits.take point.toNat) ++ "." ++ String.ofList (digits.drop point.toNat)
  else
    let power := (Nat.repr (point - 1).natAbs)
    let power := zeros (style.exponentWidth - power.length) ++ power
    let fraction := if 1 < digits.length then "." ++ String.ofList (digits.drop 1) else ""
    String.ofList (digits.take 1) ++ fraction ++ (if point - 1 < 0 then "e-" else "e+") ++ power

namespace Binary64

/-- The text of a number. -/
def toText : Binary64 → String
  | .nan => "nan"
  | .infinite negative => if negative then "-inf" else "inf"
  | .finite negative mantissa exponent =>
    let sign := if negative then "-" else ""
    if mantissa = 0 then sign ++ "0.0"
    else sign ++ (shortest mantissa exponent).toText floatStyle

end Binary64
end AgentLang.Number
