import AgentLang.Parse.Pattern
import AgentLang.Text.Quoted

/-!
# Parsers

A parser is a term. Recursion goes through named rules: `call r` stands for whatever a grammar gives
as the body of the rule `r`, and the grammar also says which rules are remembered while a text is
read. Keeping parsers as data separates what a parser means from how it is run.
-/

namespace AgentLang.Parse

/-- The rules of a grammar and the type of the values that each of them yields. -/
structure Signature where
  Rule : Type
  Out : Rule → Type

inductive Parser (S : Signature) : Type → Type 1 where
  /-- The given text. -/
  | text (literal : List Char) (name : String) : Parser S String
  /-- A word that does not go on. -/
  | keyword (word : List Char) (name : String) : Parser S String
  | token (shape : Pattern) (name : String) : Parser S String
  | eof : Parser S Unit
  | pure {α : Type} (value : α) : Parser S α
  | fail {α : Type} : Parser S α
  | map {α β : Type} (f : α → β) (p : Parser S α) : Parser S β
  | seq {α β : Type} (p : Parser S (α → β)) (q : Parser S α) : Parser S β
  /-- The second parser runs where the first one fails without commitment. -/
  | alt {α : Type} (p q : Parser S α) : Parser S α
  | optional {α : Type} (p : Parser S α) : Parser S (Option α)
  /-- Repetition that ends at a failure or where nothing is consumed. -/
  | many {α : Type} (p : Parser S α) : Parser S (List α)
  | many1 {α : Type} (p : Parser S α) : Parser S (List α)
  | sepBy {α β : Type} (p : Parser S α) (separator : Parser S β) : Parser S (List α)
  | lookahead {α : Type} (p : Parser S α) : Parser S α
  | notFollowedBy {α : Type} (p : Parser S α) (name : String) : Parser S Unit
  /-- Where `p` fails at once, `name` is expected instead of what `p` expects. -/
  | label {α : Type} (p : Parser S α) (name : String) : Parser S α
  /-- A failure of `p` is final and is explained by `message`. -/
  | commit {α : Type} (p : Parser S α) (message : String) : Parser S α
  /-- Leaves a mark in the log whenever `p` is started. -/
  | probe {α : Type} (mark : String) (p : Parser S α) : Parser S α
  | call (r : S.Rule) : Parser S (S.Out r)

/-- A body for each rule, and which rules are read at most once at each position. -/
structure Grammar (S : Signature) where
  body : (r : S.Rule) → Parser S (S.Out r)
  memoised : S.Rule → Bool

namespace Grammar

variable {S : Signature}

/-- The grammar that remembers nothing. -/
def forgetful (G : Grammar S) : Grammar S :=
  ⟨G.body, fun _ => false⟩

end Grammar

namespace Parser

variable {S : Signature} {α β : Type}

instance : Functor (Parser S) where
  map f p := .map f p

instance : Applicative (Parser S) where
  pure value := .pure value
  seq p q := .seq p (q ())

instance : OrElse (Parser S α) := ⟨fun p q => .alt p (q ())⟩

/-- The given text, named by its quoted form. -/
def lit (text : String) : Parser S String :=
  .text text.toList (Text.quotePlain text)

/-- The given text under another name. -/
def named (text name : String) : Parser S String :=
  .text text.toList name

def word (text : String) : Parser S String :=
  .keyword text.toList (Text.quotePlain text)

/-- The first alternative that succeeds or fails with commitment. -/
def choice (alternatives : List (Parser S α)) : Parser S α :=
  alternatives.foldr .alt .fail

/-- All parsers in order. -/
def sequence : List (Parser S α) → Parser S (List α)
  | [] => .pure []
  | p :: ps => .seq (.map List.cons p) (sequence ps)

def between {ω κ : Type} (opening : Parser S ω) (p : Parser S α) (closing : Parser S κ) :
    Parser S α :=
  opening *> p <* closing

end Parser
end AgentLang.Parse
