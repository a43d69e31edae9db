import AgentLang.Syntax.Expr
import AgentLang.Syntax.Type

/-!
# Statements and definitions

A program is a list of nodes, in which line ends and comments are kept.
-/

namespace AgentLang

structure Parameter where
  name : String
  hint : Option Ty
  deriving DecidableEq, Repr

inductive Visibility where
  | shown
  | hidden
  deriving DecidableEq, Repr

/-- How a thread relates to the history of messages around it. -/
inductive ThreadKind where
  /-- A new, empty history. -/
  | fresh
  /-- A child of the history around it. -/
  | child
  /-- A branch beside the history around it. -/
  | branch
  deriving DecidableEq, Repr

inductive ImportKind where
  | named
  | whole
  | main
  deriving DecidableEq, Repr

mutual

inductive Node where
  | expr (value : Expr)
  | parameter (parameter : Parameter)
  | function (name : String) (parameters : List Parameter) (body : List Node)
      (returns : Option Ty) (doc : Option String)
  | graphNode (name : String) (parameters : List Parameter) (body : List Node)
      (returns : Option Ty) (visibility : Option Visibility)
  /-- Passes control to a graph node. -/
  | goto (target : String) (arguments : List Expr)
  /-- Offers tools to the next prompt. -/
  | uses (tools : List String)
  | assign (name : String) (hint : Option Ty) (value : Node)
  | ret (value : Option Expr)
  | hint (name : String) (type : Ty)
  | ifElse (condition : Expr) (thenBody : List Node) (elseBody : Option (List Node))
  | loop (condition : Expr) (body : List Node)
  | select (subject : Expr) (arms : List Arm)
  | thread (kind : ThreadKind) (body : List Node)
  | special (name : String) (value : Expr)
  | timed (body : List Node) (prints : Bool)
  | importNames (kind : ImportKind) (names : List String) (path : String)
  | importNodes (names : List String) (path : String)
  | importTools (names : List String) (path : String)
  | comment (text : String)
  | blockComment (text : String)
  | newline

/-- An arm of a selection, or a comment between arms. The arm without a value takes what is left. -/
inductive Arm where
  | arm (value : Option Expr) (body : Node)
  | comment (text : String)

end

namespace Visibility

def toText : Visibility → String
  | .shown => "public"
  | .hidden => "private"

def ofText? : String → Option Visibility
  | "public" => some .shown
  | "private" => some .hidden
  | _ => none

end Visibility

namespace ThreadKind

def toText : ThreadKind → String
  | .fresh => "thread"
  | .child => "subthread"
  | .branch => "parallel"

def ofText? : String → Option ThreadKind
  | "thread" => some .fresh
  | "subthread" => some .child
  | "parallel" => some .branch
  | _ => none

end ThreadKind

namespace ImportKind

def toText : ImportKind → String
  | .named => "named"
  | .whole => "namespace"
  | .main => "default"

def ofText? : String → Option ImportKind
  | "named" => some .named
  | "namespace" => some .whole
  | "default" => some .main
  | _ => none

end ImportKind

namespace Node

/-- The word that names the kind of a node. -/
def tag : Node → String
  | .expr value => value.tag
  | .parameter _ => "functionParameter"
  | .function .. => "function"
  | .graphNode .. => "graphNode"
  | .goto .. => "nodeCall"
  | .uses _ => "usesTool"
  | .assign .. => "assignment"
  | .ret _ => "returnStatement"
  | .hint .. => "typeHint"
  | .ifElse .. => "ifElse"
  | .loop .. => "whileLoop"
  | .select .. => "matchBlock"
  | .thread .. => "messageThread"
  | .special .. => "specialVar"
  | .timed .. => "timeBlock"
  | .importNames .. => "importStatement"
  | .importNodes .. => "importNodeStatement"
  | .importTools .. => "importToolStatement"
  | .comment _ => "comment"
  | .blockComment _ => "multiLineComment"
  | .newline => "newLine"

end Node

/-- A source text in the order of its top-level nodes. -/
structure Program where
  nodes : List Node

namespace Program

/-- Adds one to the count of a word. A new word goes to the end. -/
def countUp (word : String) : List (String × Nat) → List (String × Nat)
  | [] => [(word, 1)]
  | (known, count) :: rest =>
    if known = word then (known, count + 1) :: rest else (known, count) :: countUp word rest

/-- How many top-level nodes there are of each kind, in the order of first occurrence. -/
def tagCounts (program : Program) : List (String × Nat) :=
  program.nodes.foldl (fun counts node => countUp node.tag counts) []

end Program

end AgentLang
