/-!
# Lexical patterns

Shapes of tokens. Matching is deterministic: alternatives are tried in order, a repetition takes as
much as it can and nothing taken is given back.
-/

namespace AgentLang.Parse

inductive Pattern where
  /-- One character of a class. -/
  | one (accepts : Char → Bool)
  /-- The given characters. -/
  | exactly (literal : List Char)
  | seq (first second : Pattern)
  | alt (first second : Pattern)
  /-- As many repetitions as there are, none allowed. -/
  | star (item : Pattern)
  /-- Nothing, where the given characters do not stand. -/
  | unless (literal : List Char)
  /-- The shortest stretch that ends with the given characters. -/
  | through (literal : List Char)

namespace Pattern

instance : Append Pattern := ⟨seq⟩
instance : OrElse Pattern := ⟨fun first second => .alt first (second ())⟩

def lit (text : String) : Pattern := .exactly text.toList

/-- One or more repetitions. -/
def plus (item : Pattern) : Pattern := item ++ .star item

def opt (item : Pattern) : Pattern := item <|> .exactly []

/-- How many characters a step takes when it is repeated while it makes progress. The first `ahead`
characters belong to the repetition under way. -/
def repeated (step : List Char → Option Nat) : (text : List Char) → (ahead : Nat) → Nat
  | [], _ => 0
  | _ :: rest, ahead + 1 => repeated step rest ahead + 1
  | c :: rest, 0 =>
    match step (c :: rest) with
    | some (more + 1) => repeated step rest more + 1
    | _ => 0

/-- How many characters there are up to the end of the first occurrence of `literal`. -/
def upToEndOf? (literal : List Char) : List Char → Option Nat
  | [] => if literal.isEmpty then some 0 else none
  | c :: rest =>
    if literal.isPrefixOf (c :: rest) then some literal.length
    else (upToEndOf? literal rest).map (· + 1)

/-- The number of characters matched at the head of `text`, if there is a match. -/
def match? : Pattern → (text : List Char) → Option Nat
  | .one accepts, text =>
    match text with
    | [] => none
    | c :: _ => if accepts c then some 1 else none
  | .exactly literal, text => if literal.isPrefixOf text then some literal.length else none
  | .seq first second, text =>
    (match? first text).bind fun taken => (match? second (text.drop taken)).map (taken + ·)
  | .alt first second, text =>
    match match? first text with
    | some taken => some taken
    | none => match? second text
  | .star item, text => some (repeated (match? item) text 0)
  | .unless literal, text => if literal.isPrefixOf text then none else some 0
  | .through literal, text => upToEndOf? literal text

end Pattern
end AgentLang.Parse
