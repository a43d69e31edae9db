/-!
# Dates and times

A day, a time of day, or both, where both may have an offset from universal time in minutes.
-/

namespace AgentLang

structure Day where
  year : Nat
  month : Nat
  day : Nat
  deriving DecidableEq, Repr

structure Clock where
  hour : Nat
  minute : Nat
  second : Nat
  micro : Nat
  deriving DecidableEq, Repr

inductive Moment where
  | day (day : Day)
  | clock (clock : Clock)
  | instant (day : Day) (clock : Clock) (offset : Option Int)
  deriving DecidableEq, Repr

/-- A number with zeros before it. -/
def padded (width n : Nat) : String :=
  let digits := Nat.repr n
  String.ofList (List.replicate (width - digits.length) '0') ++ digits

namespace Day

def isLeapYear (year : Nat) : Bool :=
  year % 4 == 0 && (year % 100 != 0 || year % 400 == 0)

def daysIn (year month : Nat) : Nat :=
  if month = 2 then (if isLeapYear year then 29 else 28)
  else if month ∈ [4, 6, 9, 11] then 30 else 31

def isValid (d : Day) : Bool :=
  0 < d.year && 0 < d.month && d.month ≤ 12 && 0 < d.day && d.day ≤ daysIn d.year d.month

def toText (d : Day) : String :=
  padded 4 d.year ++ "-" ++ padded 2 d.month ++ "-" ++ padded 2 d.day

def fields (d : Day) : List String := [Nat.repr d.year, Nat.repr d.month, Nat.repr d.day]

end Day

namespace Clock

def toText (c : Clock) : String :=
  padded 2 c.hour ++ ":" ++ padded 2 c.minute ++ ":" ++ padded 2 c.second
    ++ (if c.micro = 0 then "" else "." ++ padded 6 c.micro)

/-- The parts down to the last that is not zero, hours and minutes always. -/
def fields (c : Clock) : List String :=
  [Nat.repr c.hour, Nat.repr c.minute] ++
    (if c.micro != 0 then [Nat.repr c.second, Nat.repr c.micro]
      else if c.second != 0 then [Nat.repr c.second] else [])

end Clock

namespace Moment

def offsetText (offset : Int) : String :=
  (if offset < 0 then "-" else "+") ++ padded 2 (offset.natAbs / 60) ++ ":"
    ++ padded 2 (offset.natAbs % 60)

def zoneLiteral (offset : Int) : String :=
  if offset = 0 then "datetime.timezone.utc"
  else
    let span := if offset < 0 then
        "days=-1, seconds=" ++ Nat.repr (86400 - offset.natAbs * 60)
      else "seconds=" ++ Nat.repr (offset.natAbs * 60)
    "datetime.timezone(datetime.timedelta(" ++ span ++ "))"

/-- The word for the kind of value. -/
def kind : Moment → String
  | .day _ => "date"
  | .clock _ => "time"
  | .instant .. => "datetime"

def toText : Moment → String
  | .day d => d.toText
  | .clock c => c.toText
  | .instant d c offset =>
    d.toText ++ " " ++ c.toText ++ (offset.map offsetText).getD ""

/-- The moment as a literal of the emitted code. -/
def literal (moment : Moment) : String :=
  let fields := match moment with
    | .day d => d.fields
    | .clock c => c.fields
    | .instant d c offset =>
      d.fields ++ c.fields ++ (offset.map fun minutes => "tzinfo=" ++ zoneLiteral minutes).toList
  "datetime." ++ moment.kind ++ "(" ++ ", ".intercalate fields ++ ")"

end Moment
end AgentLang
