import AgentLang.Syntax.Node

/-!
# The order of prompts

A program is gone through in source order, but for two things. The prompts in the configuration of a
prompt come before it, and what stands behind the arm of a selection that takes what is left is not
reached.
-/

namespace AgentLang

open List

mutual

/-- The texts of the prompts in an expression. -/
def Expr.asked : Expr → List (List Segment)
  | .prompt segments config => Expr.configAsked config ++ [segments]
  | .access base chain => base.asked ++ Expr.chainAsked chain
  | .array items => Expr.listAsked items
  | .object entries => Expr.entriesAsked entries
  | .call _ arguments => Expr.listAsked arguments
  | .binary _ left right => left.asked ++ right.asked
  | _ => []

def Expr.listAsked : List Expr → List (List Segment)
  | [] => []
  | first :: rest => first.asked ++ Expr.listAsked rest

def Expr.entriesAsked : List (String × Expr) → List (List Segment)
  | [] => []
  | (_, value) :: rest => value.asked ++ Expr.entriesAsked rest

def Expr.configAsked : Option (List (String × Expr)) → List (List Segment)
  | none => []
  | some entries => Expr.entriesAsked entries

def Expr.chainAsked : List Step → List (List Segment)
  | [] => []
  | .property _ :: rest => Expr.chainAsked rest
  | .index index :: rest => index.asked ++ Expr.chainAsked rest
  | .method _ arguments :: rest => Expr.listAsked arguments ++ Expr.chainAsked rest

end

/-- What matters for the tools of a prompt. -/
inductive Turn where
  | selects (tools : List String)
  | asks (text : List Segment)
  /-- The body of a function or of a graph node begins. -/
  | enters
  | leaves

namespace Turn

def asking (e : Expr) : List Turn := e.asked.map .asks

def askingAll (es : List Expr) : List Turn := (Expr.listAsked es).map .asks

def askingIf (e : Option Expr) : List Turn := (e.map asking).getD []

/-- The tools that are selected behind the last prompt, in turns with the latest first. So many
definitions are passed by, with all that is in them. -/
def gathered : Nat → List Turn → List String
  | _, [] => []
  | 0, .selects tools :: earlier => gathered 0 earlier ++ tools
  | 0, .asks _ :: _ => []
  | 0, .enters :: _ => []
  | passed, .leaves :: earlier => gathered (passed + 1) earlier
  | passed + 1, .enters :: earlier => gathered passed earlier
  | passed + 1, _ :: earlier => gathered (passed + 1) earlier

/-- The tools that are selected for a prompt behind these turns: those since the prompt before it,
or since the body around it begins, each where it is selected first. -/
def selected (turns : List Turn) : List String := (gathered 0 turns.reverse).eraseDups

/-- What is entered in these turns is left again. -/
def Balanced (turns : List Turn) : Prop :=
  ∀ passed earlier, gathered (passed + 1) (turns.reverse ++ earlier) = gathered (passed + 1) earlier

theorem balanced_nil : Balanced [] := fun _ _ => rfl

theorem balanced_selects (tools : List String) : Balanced [.selects tools] := fun _ _ => rfl

theorem Balanced.append (h : Balanced turns) (h' : Balanced others) :
    Balanced (turns ++ others) := by
  intro passed earlier
  rw [reverse_append, append_assoc, h' passed, h passed]

theorem balanced_asks (texts : List (List Segment)) : Balanced (texts.map .asks) := by
  induction texts with
  | nil => exact balanced_nil
  | cons text rest ih =>
    have hfirst : Balanced [.asks text] := fun _ _ => rfl
    exact hfirst.append ih

theorem reverse_definition (turns : List Turn) :
    (enters :: turns ++ [leaves]).reverse = leaves :: (turns.reverse ++ [enters]) := by
  simp

theorem Balanced.definition (h : Balanced turns) : Balanced (.enters :: turns ++ [.leaves]) := by
  intro passed earlier
  rw [reverse_definition, cons_append, append_assoc, gathered, h (passed + 1)]
  rfl

/-! ### Selections turn by turn -/

theorem selected_selects (earlier : List Turn) (tools : List String) :
    selected (earlier ++ [.selects tools]) = (gathered 0 earlier.reverse ++ tools).eraseDups := by
  rw [selected, reverse_append]
  rfl

theorem selected_asks (earlier : List Turn) (text : List Segment) :
    selected (earlier ++ [.asks text]) = [] := by
  rw [selected, reverse_append]
  rfl

theorem selected_enters (earlier : List Turn) : selected (earlier ++ [.enters]) = [] := by
  rw [selected, reverse_append]
  rfl

theorem selected_definition (earlier : List Turn) (h : Balanced turns) :
    selected (earlier ++ (.enters :: turns ++ [.leaves])) = selected earlier := by
  rw [selected, reverse_append, reverse_definition, cons_append, append_assoc,
    gathered, h 0]
  rfl

end Turn

namespace Node

open Turn (asking askingAll askingIf)

mutual

def turns : Node → List Turn
  | .expr value => asking value
  | .function _ _ body _ _ => .enters :: listTurns body ++ [.leaves]
  | .graphNode _ _ body _ _ => .enters :: listTurns body ++ [.leaves]
  | .goto _ arguments => askingAll arguments
  | .uses tools => [.selects tools]
  | .assign _ _ value => value.turns
  | .ret value => askingIf value
  | .ifElse condition thenBody elseBody =>
    asking condition ++ listTurns thenBody ++ otherwiseTurns elseBody
  | .loop condition body => asking condition ++ listTurns body
  | .select subject arms => asking subject ++ armTurns arms
  | .thread _ body => listTurns body
  | .special _ value => asking value
  | .timed body _ => listTurns body
  | _ => []

def listTurns : List Node → List Turn
  | [] => []
  | node :: nodes => node.turns ++ listTurns nodes

def otherwiseTurns : Option (List Node) → List Turn
  | none => []
  | some nodes => listTurns nodes

def armTurns : List Arm → List Turn
  | [] => []
  | .comment _ :: arms => armTurns arms
  | .arm none body :: _ => body.turns
  | .arm (some value) body :: arms => asking value ++ body.turns ++ armTurns arms

end

end Node

/-- The turns of a whole program. -/
def Program.turns (program : Program) : List Turn := Node.listTurns program.nodes

end AgentLang
