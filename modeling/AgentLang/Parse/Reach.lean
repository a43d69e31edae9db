import AgentLang.Names

/-!
# How far the failures reach

While a parser runs, attempts fail at many positions. Only the furthest of these is worth reporting,
with everything that was expected there. Two such findings join to the one that reaches further,
or to both at once when they stand at the same position.
-/

namespace AgentLang.Parse

inductive Reach where
  /-- No attempt has failed. -/
  | unseen
  /-- The furthest failures stand at `pos`, where one of `names` was expected. -/
  | upTo (pos : Nat) (names : Names)
  deriving DecidableEq

namespace Reach

/-- A single failed attempt. -/
def missed (pos : Nat) (name : String) : Reach :=
  .upTo pos {name}

def join : Reach → Reach → Reach
  | .unseen, right => right
  | left, .unseen => left
  | .upTo p left, .upTo q right =>
    if p < q then .upTo q right
    else if q < p then .upTo p left
    else .upTo p (left ∪ right)

instance : Max Reach := ⟨join⟩

def pos? : Reach → Option Nat
  | .unseen => none
  | .upTo pos _ => some pos

def names : Reach → Names
  | .unseen => ∅
  | .upTo _ names => names

/-- Whether no failure stands beyond a position. -/
def within (reach : Reach) (pos : Nat) : Bool :=
  match reach with
  | .unseen => true
  | .upTo furthest _ => furthest ≤ pos

end Reach
end AgentLang.Parse
