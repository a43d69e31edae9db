/-!
# Cursors

A place in a text together with what is left of the text from there. A run may also be started past
the end of the text; the cursor then knows by how much.
-/

namespace AgentLang.Parse

structure Cursor where
  pos : Nat
  rest : List Char
  /-- By how much the position lies past the end of the text. -/
  excess : Nat := 0
  deriving DecidableEq, Repr

namespace Cursor

/-- The cursor of a text at a position. -/
def ofPos (text : List Char) (pos : Nat) : Cursor :=
  ⟨pos, text.drop pos, pos - text.length⟩

/-- The cursor after the next `count` characters. -/
def advance (c : Cursor) (count : Nat) : Cursor :=
  ⟨c.pos + count, c.rest.drop count, c.excess⟩

/-- The nearest place inside the text. -/
def clamp (c : Cursor) : Cursor :=
  ⟨c.pos - c.excess, c.rest, 0⟩

/-- Whether `literal` stands at the cursor. Nothing stands past the end, not even the empty text. -/
def startsWith (c : Cursor) (literal : List Char) : Bool :=
  c.excess == 0 && literal.isPrefixOf c.rest

end Cursor
end AgentLang.Parse
