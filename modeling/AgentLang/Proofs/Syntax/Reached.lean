import AgentLang.Proofs.Syntax.Walk

/-!
# What is reached and what is called

Nothing that stands behind the arm of a selection that takes what is left is ever reached. The calls
of a program are those of the nodes that are reached. Methods are not called by name, so they do not
count.
-/

namespace AgentLang

open List

/-- What is called by its name. -/
inductive Called where
  | function (name : String)
  /-- A node that control is passed to. -/
  | node (name : String)
  deriving DecidableEq, Repr

def Called.name : Called → String
  | .function name => name
  | .node name => name

namespace Expr

mutual

/-- The functions that an expression calls. -/
def called : Expr → List Called
  | .prompt _ config => configCalled config
  | .access base chain => base.called ++ chainCalled chain
  | .array items => listCalled items
  | .object entries => entriesCalled entries
  | .call function arguments => listCalled arguments ++ [.function function]
  | .binary _ left right => left.called ++ right.called
  | _ => []

def listCalled : List Expr → List Called
  | [] => []
  | first :: rest => first.called ++ listCalled rest

def entriesCalled : List (String × Expr) → List Called
  | [] => []
  | (_, value) :: rest => value.called ++ entriesCalled rest

def configCalled : Option (List (String × Expr)) → List Called
  | none => []
  | some entries => entriesCalled entries

def chainCalled : List Step → List Called
  | [] => []
  | .property _ :: rest => chainCalled rest
  | .index index :: rest => index.called ++ chainCalled rest
  | .method _ arguments :: rest => listCalled arguments ++ chainCalled rest

end

end Expr

namespace Arm

/-- The functions that are called by the values of the arms that are reached. -/
def valuesCalled : List Arm → List Called
  | [] => []
  | .comment _ :: arms => valuesCalled arms
  | .arm none _ :: _ => []
  | .arm (some value) _ :: arms => value.called ++ valuesCalled arms

def isComment : Arm → Bool
  | .comment _ => true
  | .arm .. => false

/-- Only comments stand behind the arm that takes what is left. -/
def isClosed : List Arm → Bool
  | [] => true
  | .comment _ :: arms => isClosed arms
  | .arm none _ :: arms => arms.all isComment
  | .arm (some _) _ :: arms => isClosed arms

end Arm

namespace Node

mutual

/-- The node and those inside it that are reached. -/
def reached : Node → List Node
  | node@(.function _ _ body _ _) => node :: listReached body
  | node@(.graphNode _ _ body _ _) => node :: listReached body
  | node@(.ifElse _ thenBody elseBody) =>
    node :: listReached thenBody ++ otherwiseReached elseBody
  | node@(.loop _ body) => node :: listReached body
  | node@(.thread _ body) => node :: listReached body
  | node@(.timed body _) => node :: listReached body
  | node@(.select _ arms) => node :: armsReached arms
  | node@(.assign _ _ value) => node :: value.reached
  | node => [node]

def listReached : List Node → List Node
  | [] => []
  | node :: nodes => node.reached ++ listReached nodes

def otherwiseReached : Option (List Node) → List Node
  | none => []
  | some nodes => listReached nodes

def armsReached : List Arm → List Node
  | [] => []
  | .comment _ :: arms => armsReached arms
  | .arm none body :: _ => body.reached
  | .arm (some _) body :: arms => body.reached ++ armsReached arms

end

/-- What a node calls by itself, apart from the nodes inside it. -/
def calls : Node → List Called
  | .expr value => value.called
  | .goto target arguments => Expr.listCalled arguments ++ [.node target]
  | .ret value => (value.map Expr.called).getD []
  | .ifElse condition _ _ => condition.called
  | .loop condition _ => condition.called
  | .select subject arms => subject.called ++ Arm.valuesCalled arms
  | .special _ value => value.called
  | _ => []

/-- All that a node calls where it is reached. -/
def called (n : Node) : List Called := n.reached.flatMap calls

def listCalled (nodes : List Node) : List Called := (listReached nodes).flatMap calls

def otherwiseCalled (other : Option (List Node)) : List Called :=
  (otherwiseReached other).flatMap calls

def armsCalled (arms : List Arm) : List Called :=
  Arm.valuesCalled arms ++ (armsReached arms).flatMap calls

theorem called_leaf {n : Node} (h : n.reached = [n]) : n.called = n.calls := by
  rw [called, h, flatMap_singleton]

theorem called_ifElse (condition : Expr) (thenBody : List Node) (elseBody : Option (List Node)) :
    (Node.ifElse condition thenBody elseBody).called =
      condition.called ++ (listCalled thenBody ++ otherwiseCalled elseBody) := by
  rw [called, reached, cons_append, flatMap_cons, flatMap_append]
  rfl

theorem called_loop (condition : Expr) (body : List Node) :
    (Node.loop condition body).called = condition.called ++ listCalled body := rfl

theorem called_select (subject : Expr) (arms : List Arm) :
    (Node.select subject arms).called = subject.called ++ armsCalled arms := by
  rw [called, reached, flatMap_cons, calls, append_assoc]
  rfl

theorem listCalled_cons (n : Node) (nodes : List Node) :
    listCalled (n :: nodes) = n.called ++ listCalled nodes :=
  flatMap_append

theorem otherwiseCalled_chain (condition : Expr) (thenBody : List Node)
    (elseBody : Option (List Node)) :
    otherwiseCalled (some [.ifElse condition thenBody elseBody]) =
      condition.called ++ (listCalled thenBody ++ otherwiseCalled elseBody) := by
  rw [← called_ifElse, otherwiseCalled, otherwiseReached, listReached, listReached,
    append_nil]
  rfl

theorem armsCalled_arm (value : Expr) (body : Node) (arms : List Arm) :
    (armsCalled (.arm (some value) body :: arms)).Perm
      (value.called ++ (body.called ++ armsCalled arms)) := by
  rw [armsCalled, Arm.valuesCalled, armsReached, flatMap_append, append_assoc, armsCalled]
  refine List.Perm.append_left _ ?_
  rw [← append_assoc, ← append_assoc]
  exact perm_append_comm.append_right _

/-! ### Programs in which all is reached -/

/-- Every selection of the nodes is closed. -/
def AllClosed (nodes : List Node) : Prop :=
  ∀ subject arms, .select subject arms ∈ nodes → Arm.isClosed arms

theorem AllClosed.mono (h : AllClosed nodes) (hsub : others ⊆ nodes) : AllClosed others :=
  fun subject arms hmem => h subject arms (hsub hmem)

theorem walkArms_comments (h : arms.all Arm.isComment) : walkArms b arms = [] := by
  induction arms with
  | nil => rfl
  | cons first rest ih =>
    rw [all_cons, Bool.and_eq_true] at h
    cases first with
    | comment text => exact ih h.2
    | arm value body => exact nomatch h.1

mutual

theorem reached_eq_walk (n : Node) (h : AllClosed (n.walk true)) : n.reached = n.walk true := by
  cases n with
  | function _ _ body | graphNode _ _ body =>
    exact congrArg _ (listReached_eq_walk body (h.mono (subset_cons_self ..)))
  | ifElse condition thenBody elseBody =>
    have hinner := h.mono (subset_cons_self ..)
    rw [reached, walk, cons_append, cons_append,
      listReached_eq_walk thenBody (hinner.mono (subset_append_left ..)),
      otherwiseReached_eq_walk elseBody (hinner.mono (subset_append_right ..))]
  | loop _ body | thread _ body | timed body =>
    exact congrArg _ (listReached_eq_walk body (h.mono (subset_cons_self ..)))
  | select subject arms =>
    have hclosed := h subject arms mem_cons_self
    exact congrArg _ (armsReached_eq_walk arms hclosed (h.mono (subset_cons_self ..)))
  | assign name hint value =>
    exact congrArg _ (reached_eq_walk value (h.mono (subset_cons_self ..)))
  | _ => rfl
termination_by structural n

theorem listReached_eq_walk (nodes : List Node) (h : AllClosed (walkList true nodes)) :
    listReached nodes = walkList true nodes := by
  cases nodes with
  | nil => rfl
  | cons n rest =>
    rw [listReached, walkList, reached_eq_walk n (h.mono (subset_append_left ..)),
      listReached_eq_walk rest (h.mono (subset_append_right ..))]
termination_by structural nodes

theorem otherwiseReached_eq_walk (other : Option (List Node))
    (h : AllClosed (walkOption true other)) : otherwiseReached other = walkOption true other := by
  cases other with
  | none => rfl
  | some nodes => exact listReached_eq_walk nodes h
termination_by structural other

theorem armsReached_eq_walk (arms : List Arm) (hclosed : Arm.isClosed arms)
    (h : AllClosed (walkArms true arms)) : armsReached arms = walkArms true arms := by
  cases arms with
  | nil => rfl
  | cons first rest =>
    cases first with
    | comment text => exact armsReached_eq_walk rest hclosed h
    | arm value body =>
      have hbody := reached_eq_walk body (h.mono (subset_append_left ..))
      cases value with
      | none => rw [armsReached, walkArms, hbody, walkArms_comments hclosed, append_nil]
      | some value =>
        rw [armsReached, walkArms, hbody,
          armsReached_eq_walk rest hclosed (h.mono (subset_append_right ..))]
termination_by structural arms

end

end Node

namespace Program

/-- All that the nodes of a program call where they are reached. -/
def called (program : Program) : List Called := Node.listCalled program.nodes

end Program
end AgentLang
