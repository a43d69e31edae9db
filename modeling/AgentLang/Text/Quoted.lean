import AgentLang.Text.Printable

/-!
# Quoted text

Two written forms of a text. The plain form stands between apostrophes, or between quotation marks
when the text holds an apostrophe and no quotation mark, and writes printable characters as
themselves. The ASCII form stands between quotation marks and writes everything outside the visible
ASCII characters with an escape of UTF-16 units.
-/

namespace AgentLang.Text

def hexDigit (n : Nat) : Char :=
  if n < 10 then Char.ofNat (0x30 + n) else Char.ofNat (0x57 + n)

/-- The lowest `width` hexadecimal digits of `n`, in lower case. -/
def hex : (width : Nat) → (n : Nat) → List Char
  | 0, _ => []
  | width + 1, n => hex width (n / 16) ++ [hexDigit (n % 16)]

namespace Plain

/-- The mark that opens and closes the plain form. -/
def mark (text : List Char) : Char :=
  if text.contains '\'' && !text.contains '"' then '"' else '\''

def escape (mark c : Char) : List Char :=
  if c = mark || c = '\\' then ['\\', c]
  else if c = '\n' then ['\\', 'n']
  else if c = '\r' then ['\\', 'r']
  else if c = '\t' then ['\\', 't']
  else if isPrintable c then [c]
  else if c.toNat < 0x100 then '\\' :: 'x' :: hex 2 c.toNat
  else if c.toNat < 0x10000 then '\\' :: 'u' :: hex 4 c.toNat
  else '\\' :: 'U' :: hex 8 c.toNat

end Plain

/-- The plain quoted form. -/
def quotePlain (text : String) : String :=
  let chars := text.toList
  let mark := Plain.mark chars
  String.ofList (mark :: chars.flatMap (Plain.escape mark) ++ [mark])

namespace Ascii

/-- The escape of one code point, as one or two UTF-16 units. -/
def units (code : Nat) : List Char :=
  if code < 0x10000 then
    '\\' :: 'u' :: hex 4 code
  else
    let above := code - 0x10000
    '\\' :: 'u' :: hex 4 (0xd800 + above / 0x400) ++ '\\' :: 'u' :: hex 4 (0xdc00 + above % 0x400)

def escape (c : Char) : List Char :=
  if c = '"' || c = '\\' then ['\\', c]
  else if c = '\n' then ['\\', 'n']
  else if c = '\r' then ['\\', 'r']
  else if c = '\t' then ['\\', 't']
  else if c = '\x08' then ['\\', 'b']
  else if c = '\x0c' then ['\\', 'f']
  else if ' ' ≤ c && c ≤ '~' then [c]
  else units c.toNat

end Ascii

/-- The ASCII quoted form. -/
def quoteAscii (text : String) : String :=
  String.ofList ('"' :: text.toList.flatMap Ascii.escape ++ ['"'])

end AgentLang.Text
