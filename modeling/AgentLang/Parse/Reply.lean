import AgentLang.Parse.Cursor
import AgentLang.Parse.Reach

/-!
# Replies

What a parser answers: a value and the cursor behind it, or a failure, and in both cases how far the
failures met on the way reach. A committed failure carries a message of its own.
-/

namespace AgentLang.Parse

inductive Outcome (α : Type) where
  | success (value : α) (next : Cursor)
  | failure (pos : Nat) (committed : Option String)
  deriving DecidableEq

structure Reply (α : Type) where
  outcome : Outcome α
  reach : Reach
  deriving DecidableEq

namespace Outcome

variable {α β : Type}

def map (f : α → β) : Outcome α → Outcome β
  | .success value next => .success (f value) next
  | .failure pos committed => .failure pos committed

def isSuccess : Outcome α → Bool
  | .success .. => true
  | .failure .. => false

end Outcome

namespace Reply

variable {α β : Type}

def succeed (value : α) (next : Cursor) : Reply α :=
  ⟨.success value next, .unseen⟩

/-- A failed attempt to find `name` at a position. -/
def miss (pos : Nat) (name : String) : Reply α :=
  ⟨.failure pos none, .missed pos name⟩

def map (f : α → β) (reply : Reply α) : Reply β :=
  ⟨reply.outcome.map f, reply.reach⟩

/-- The reply when `earlier` was found out before it. -/
def after (earlier : Reach) (reply : Reply α) : Reply α :=
  ⟨reply.outcome, earlier.join reply.reach⟩

end Reply
end AgentLang.Parse
