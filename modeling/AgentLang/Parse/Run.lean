import AgentLang.Parse.Parser
import AgentLang.Parse.Reply
import Std.Data.DHashMap

/-!
# Running parsers

One interpreter serves every way of running a parser; an engine says how a rule is called and what a
mark leaves behind. The plain engine calls the bodies of the rules and nothing else. The remembering
engine keeps the replies of the memoised rules by position and the log of marks.

A rule is called with a budget for the depth of nested calls, and a repetition has a budget of
rounds. A run that exceeds one of them has no reply.
-/

namespace AgentLang.Parse

structure Engine (S : Signature) (m : Type → Type) where
  call : (r : S.Rule) → Cursor → m (Reply (S.Out r))
  mark : String → Nat → m Unit
  exhausted : {α : Type} → m α
  /-- The most rounds of one repetition. -/
  rounds : Nat

namespace Engine

variable {S : Signature} {m : Type → Type} [Monad m] {α β : Type}

def isWordChar (c : Char) : Bool :=
  c.isAlphanum || c == '_'

def matchText (literal : List Char) (name : String) (c : Cursor) : Reply String :=
  if c.startsWith literal then
    .succeed (String.ofList literal) (c.advance literal.length)
  else
    .miss c.pos name

def matchKeyword (word : List Char) (name : String) (c : Cursor) : Reply String :=
  if c.startsWith word && !((c.rest.drop word.length).head?.any isWordChar) then
    .succeed (String.ofList word) (c.advance word.length)
  else
    .miss c.pos name

def matchToken (shape : Pattern) (name : String) (c : Cursor) : Reply String :=
  match shape.match? c.rest with
  | some taken => .succeed (String.ofList (c.rest.take taken)) (c.clamp.advance taken)
  | none => .miss c.pos name

def matchEnd (c : Cursor) : Reply Unit :=
  if c.rest.isEmpty then .succeed () c else .miss c.pos "end of input"

/-- Goes on behind a success and keeps what was found out before it. -/
@[specialize] def andThen (first : m (Reply α)) (next : α → Cursor → m (Reply β)) :
    m (Reply β) := do
  let reply ← first
  match reply.outcome with
  | .success value cursor => return (← next value cursor).after reply.reach
  | .failure pos committed => return ⟨.failure pos committed, reply.reach⟩

/-- Repeats a step until it fails or consumes nothing. -/
@[specialize] def repeated (E : Engine S m) (step : Cursor → m (Reply α)) :
    (rounds : Nat) → Cursor → m (Reply (List α))
  | 0, _ => E.exhausted
  | rounds + 1, c => do
    let reply ← step c
    match reply.outcome with
    | .failure pos (some message) => return ⟨.failure pos (some message), reply.reach⟩
    | .failure _ none => return ⟨.success [] c, reply.reach⟩
    | .success value next =>
      if next.pos = c.pos then
        return ⟨.success [] c, reply.reach⟩
      else
        let others ← repeated E step rounds next
        return (others.map (value :: ·)).after reply.reach

@[specialize] def run (E : Engine S m) : {α : Type} → Parser S α → Cursor → m (Reply α)
  | _, .text literal name, c => return matchText literal name c
  | _, .keyword word name, c => return matchKeyword word name c
  | _, .token shape name, c => return matchToken shape name c
  | _, .eof, c => return matchEnd c
  | _, .pure value, c => return .succeed value c
  | _, .fail, c => return ⟨.failure c.pos none, .unseen⟩
  | _, .map f p, c => return (← run E p c).map f
  | _, .seq p q, c => andThen (run E p c) fun f next => return (← run E q next).map f
  | _, .alt p q, c => do
    let reply ← run E p c
    match reply.outcome with
    | .failure _ none =>
      let other ← run E q c
      match other.outcome with
      | .failure _ none => return ⟨.failure c.pos none, reply.reach.join other.reach⟩
      | _ => return other.after reply.reach
    | _ => return reply
  | _, .optional p, c => do
    let reply ← run E p c
    match reply.outcome with
    | .failure _ none => return ⟨.success none c, reply.reach⟩
    | _ => return reply.map some
  | _, .many p, c => repeated E (run E p) E.rounds c
  | _, .many1 p, c => do
    let reply ← repeated E (run E p) E.rounds c
    match reply.outcome with
    | .success [] _ =>
      let first ← run E p c
      match first.outcome with
      | .failure pos committed => return ⟨.failure pos committed, first.reach⟩
      | .success .. => return reply
    | _ => return reply
  | _, .sepBy p separator, c => do
    let first ← run E p c
    match first.outcome with
    | .failure pos (some message) => return ⟨.failure pos (some message), first.reach⟩
    | .failure _ none => return ⟨.success [] c, first.reach⟩
    | .success value next =>
      let others ← repeated E (fun c => andThen (run E separator c) fun _ => run E p) E.rounds next
      match others.outcome with
      | .failure pos committed => return ⟨.failure pos committed, others.reach⟩
      | .success values last =>
        return ⟨.success (value :: values) last, first.reach.join others.reach⟩
  | _, .lookahead p, c => do
    let reply ← run E p c
    match reply.outcome with
    | .success value _ => return .succeed value c
    | .failure .. => return reply
  | _, .notFollowedBy p name, c => do
    let reply ← run E p c
    match reply.outcome with
    | .success .. => return .miss c.pos ("not " ++ name)
    | .failure .. => return .succeed () c
  | _, .label p name, c => do
    let reply ← run E p c
    match reply.outcome with
    | .failure _ none => if reply.reach.within c.pos then return .miss c.pos name else return reply
    | _ => return reply
  | _, .commit p message, c => do
    let reply ← run E p c
    match reply.outcome with
    | .failure pos none => return ⟨.failure pos (some message), reply.reach⟩
    | _ => return reply
  | _, .probe mark p, c => do
    E.mark mark c.pos
    run E p c
  | _, .call r, c => E.call r c

end Engine

namespace Grammar

variable {S : Signature} {α : Type}

/-- The plain reply of a rule. -/
def evalRule (G : Grammar S) (rounds : Nat) :
    (depth : Nat) → (r : S.Rule) → Cursor → Option (Reply (S.Out r))
  | 0, _, _ => none
  | depth + 1, r, c =>
    Engine.run ⟨G.evalRule rounds depth, fun _ _ => some (), none, rounds⟩ (G.body r) c

/-- The plain reply of a parser. -/
def eval (G : Grammar S) (rounds depth : Nat) (p : Parser S α) (c : Cursor) : Option (Reply α) :=
  Engine.run ⟨G.evalRule rounds depth, fun _ _ => some (), none, rounds⟩ p c

variable [DecidableEq S.Rule] [Hashable S.Rule]

/-- Rules at positions are told apart as they are equal. -/
instance lawfulPlaces : LawfulBEq (S.Rule × Nat) := inferInstance

/-- What is remembered while one text is read. -/
structure Memory (S : Signature) [DecidableEq S.Rule] [Hashable S.Rule] where
  replies : Std.DHashMap (S.Rule × Nat) fun key => Reply (S.Out key.1) := ∅
  /-- The marks left so far, the latest first. -/
  log : List (String × Nat) := []

/-- Runs that share a memory. -/
abbrev Session (S : Signature) [DecidableEq S.Rule] [Hashable S.Rule] : Type → Type :=
  StateT (Memory S) Option

namespace Session

def mark (name : String) (pos : Nat) : Session S Unit :=
  modify fun memory => { memory with log := (name, pos) :: memory.log }

def exhausted : Session S α :=
  fun _ => none

/-- The reply known for a rule at a position, or else the computed one, which is then known. -/
def remembered (r : S.Rule) (pos : Nat) (compute : Session S (Reply (S.Out r))) :
    Session S (Reply (S.Out r)) := do
  match (← get).replies.get? (r, pos) with
  | some reply => return reply
  | none =>
    let reply ← compute
    modify fun memory => { memory with replies := memory.replies.insert (r, pos) reply }
    return reply

end Session

/-- The reply of a rule in a session. -/
def sessionRule (G : Grammar S) (rounds : Nat) :
    (depth : Nat) → (r : S.Rule) → Cursor → Session S (Reply (S.Out r))
  | 0, _, _ => Session.exhausted
  | depth + 1, r, c =>
    let compute := Engine.run
      ⟨G.sessionRule rounds depth, Session.mark, Session.exhausted, rounds⟩ (G.body r) c
    if G.memoised r then Session.remembered r c.pos compute else compute

/-- The reply of a parser in a session. -/
def session (G : Grammar S) (rounds depth : Nat) (p : Parser S α) (c : Cursor) :
    Session S (Reply α) :=
  Engine.run ⟨G.sessionRule rounds depth, Session.mark, Session.exhausted, rounds⟩ p c

/-- Rounds enough for every repetition over a text. -/
def roundsFor (text : List Char) : Nat :=
  text.length + 2

/-- Depth enough for a grammar in which no rule comes back to itself without advancing. -/
def depthFor (rules : Nat) (text : List Char) : Nat :=
  rules * (text.length + 2) + 1

end Grammar
end AgentLang.Parse
