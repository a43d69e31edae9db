import AgentLang.Parse.Parser

/-!
# Parts of parsers

What a parser is built from includes the bodies of the rules that it calls, and of those that they
call in turn. A condition on how parsers are built is a condition on all of these.
-/

namespace AgentLang.Parse

variable {S : Signature} {α : Type}

/-- The rules that a parser calls by itself. -/
def Parser.rules : {α : Type} → Parser S α → List S.Rule
  | _, .map _ p => p.rules
  | _, .seq p q => p.rules ++ q.rules
  | _, .alt p q => p.rules ++ q.rules
  | _, .optional p => p.rules
  | _, .many p => p.rules
  | _, .many1 p => p.rules
  | _, .sepBy p separator => p.rules ++ separator.rules
  | _, .lookahead p => p.rules
  | _, .notFollowedBy p _ => p.rules
  | _, .label p _ => p.rules
  | _, .commit p _ => p.rules
  | _, .probe _ p => p.rules
  | _, .call r => [r]
  | _, _ => []

namespace Grammar

/-- The rules that a parser comes to call, by itself or through other rules. -/
inductive Reaches (G : Grammar S) (p : Parser S α) : S.Rule → Prop where
  | here {r : S.Rule} (h : r ∈ p.rules) : G.Reaches p r
  | through {r r' : S.Rule} (h : G.Reaches p r) (h' : r' ∈ (G.body r).rules) : G.Reaches p r'

/-- The parser and the bodies of all rules that it comes to call are built in a certain way. -/
def Throughout (G : Grammar S) (P : {α : Type} → Parser S α → Prop) (p : Parser S α) : Prop :=
  P p ∧ ∀ r, G.Reaches p r → P (G.body r)

variable {G : Grammar S} {P : {α : Type} → Parser S α → Prop} {p : Parser S α}

theorem Reaches.of_body (hr : r ∈ p.rules) (h : G.Reaches (G.body r) r') : G.Reaches p r' := by
  induction h with
  | here h => exact .through (.here hr) h
  | through _ h ih => exact .through ih h

theorem Throughout.body (h : G.Throughout P p) (hr : r ∈ p.rules) : G.Throughout P (G.body r) :=
  ⟨h.2 r (.here hr), fun r' hr' => h.2 r' (hr'.of_body hr)⟩

theorem throughout_of_bodies (hp : P p) (hG : ∀ r, P (G.body r)) : G.Throughout P p :=
  ⟨hp, fun r _ => hG r⟩

end Grammar
end AgentLang.Parse
