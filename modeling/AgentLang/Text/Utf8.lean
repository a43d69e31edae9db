import AgentLang.Text.Lines

/-!
# UTF-8

A character is one byte, or a first byte that says how many bytes follow it. Bytes are read one at a
time; a sequence that no character has is refused, with the place where it starts.
-/

namespace AgentLang.Text

inductive Utf8Fault where
  | start
  | continuation
  | ends
  deriving DecidableEq, Repr

def Utf8Fault.message : Utf8Fault → String
  | .start => "invalid start byte"
  | .continuation => "invalid continuation byte"
  | .ends => "unexpected end of data"

structure Utf8Error where
  fault : Utf8Fault
  /-- Where the refused sequence starts. -/
  offset : Nat
  deriving DecidableEq, Repr

namespace Utf8

/-- A character that is not complete yet. -/
structure Partial where
  start : Nat
  /-- How many bytes are still owed, without the next one. -/
  more : Nat
  /-- The least and the greatest byte that may come next. -/
  low : UInt8
  high : UInt8
  /-- The bits so far. -/
  code : Nat
  deriving DecidableEq, Repr

/-- What a first byte above 0x7F opens. -/
def opened? (offset : Nat) (byte : UInt8) : Option Partial :=
  let bits := byte.toNat
  if 0xC2 ≤ byte && byte ≤ 0xDF then some ⟨offset, 0, 0x80, 0xBF, bits - 0xC0⟩
  else if byte == 0xE0 then some ⟨offset, 1, 0xA0, 0xBF, 0⟩
  else if byte == 0xED then some ⟨offset, 1, 0x80, 0x9F, bits - 0xE0⟩
  else if 0xE1 ≤ byte && byte ≤ 0xEF then some ⟨offset, 1, 0x80, 0xBF, bits - 0xE0⟩
  else if byte == 0xF0 then some ⟨offset, 2, 0x90, 0xBF, 0⟩
  else if 0xF1 ≤ byte && byte ≤ 0xF3 then some ⟨offset, 2, 0x80, 0xBF, bits - 0xF0⟩
  else if byte == 0xF4 then some ⟨offset, 2, 0x80, 0x8F, bits - 0xF0⟩
  else none

/-- Reads on. `done` holds the characters so far, the last first. -/
def decodeFrom (offset : Nat) (done : List Char) :
    Option Partial → List UInt8 → Except Utf8Error (List Char)
  | none, [] => .ok done.reverse
  | some opened, [] => .error ⟨.ends, opened.start⟩
  | none, byte :: rest =>
    if byte < 0x80 then
      decodeFrom (offset + 1) (Char.ofNat byte.toNat :: done) none rest
    else
      match opened? offset byte with
      | some opened => decodeFrom (offset + 1) done (some opened) rest
      | none => .error ⟨.start, offset⟩
  | some opened, byte :: rest =>
    if opened.low ≤ byte && byte ≤ opened.high then
      let code := opened.code * 64 + (byte.toNat - 0x80)
      match opened.more with
      | 0 => decodeFrom (offset + 1) (Char.ofNat code :: done) none rest
      | more + 1 =>
        decodeFrom (offset + 1) done (some ⟨opened.start, more, 0x80, 0xBF, code⟩) rest
    else
      .error ⟨.continuation, opened.start⟩

end Utf8

/-- The characters that bytes stand for. -/
def decodeUtf8 (bytes : List UInt8) : Except Utf8Error (List Char) :=
  Utf8.decodeFrom 0 [] none bytes

/-- The text of a file, where every kind of line end is a line feed. -/
def readText (bytes : List UInt8) : Except Utf8Error String :=
  (decodeUtf8 bytes).map fun text => String.ofList (unifyLineEnds text)

end AgentLang.Text
