/-!
# Sets of code points

A property of characters is tabulated as the ascending list of the code points at which membership
changes: a character has the property when an odd number of these points lie at or below it.
-/

namespace AgentLang.Text

/-- A set of code points, outside below its first flip and changing at each flip. -/
structure CodeSet where
  flips : List Nat
  deriving Repr

namespace CodeSet

/-- The set with runs of these lengths by turns outside and inside it. -/
def ofRuns (runs : List Nat) : CodeSet where
  flips := go 0 runs
where
  go (code : Nat) : List Nat → List Nat
    | [] => []
    | run :: runs => (code + run) :: go (code + run) runs

/-- Whether a code point lies in the set. -/
def holds (set : CodeSet) (code : Nat) : Bool :=
  set.flips.foldl (fun inside flip => if flip ≤ code then !inside else inside) false

def contains (set : CodeSet) (c : Char) : Bool :=
  set.holds c.toNat

end CodeSet
end AgentLang.Text
