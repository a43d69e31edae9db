import AgentLang.Grammar.Lexeme
import AgentLang.Proofs.Parse.Pattern
import AgentLang.Syntax.Decode

/-!
# Well-formed programs

Which kinds of expression may stand where is said by the kinds that documents allow there. Words
that the syntax keeps as texts are those of the language, and what must not be empty is not.
-/

namespace AgentLang

/-- The names of the types that are not written out. -/
def Ty.primitiveNames : List String := ["number", "string", "boolean"]

/-- The variables that mean something to the compiler. -/
def specialNames : List String := ["model", "messages"]

/-- What may stand on the right of an assignment. -/
def Node.assignedKinds : List String := Decode.expressionKinds ++ ["messageThread", "timeBlock"]

inductive Ty.WellFormed : Ty → Prop where
  | named {name : String} (known : name ∈ primitiveNames) : WellFormed (.named name)
  | array {element : Ty} (inner : WellFormed element) : WellFormed (.array element)
  | text (value : String) : WellFormed (.text value)
  | number {value : String} (written : Grammar.Shape.number.Accepts value.toList) :
      WellFormed (.number value)
  | boolean (value : Bool) : WellFormed (.boolean value)

mutual

inductive Expr.WellFormed : Expr → Prop where
  | number (text : String) : Expr.WellFormed (.number text)
  | string (segments : List Segment) : Expr.WellFormed (.string segments)
  | multiline (segments : List Segment) : Expr.WellFormed (.multiline segments)
  | boolean (value : Bool) : Expr.WellFormed (.boolean value)
  | name (name : String) : Expr.WellFormed (.name name)
  | prompt (segments : List Segment) {config : Option (List (String × Expr))}
      (fields : ∀ entries ∈ config, ∀ entry ∈ entries, Expr.WellFormed entry.2) :
      Expr.WellFormed (.prompt segments config)
  | access {base : Expr} {chain : List Step} (kind : base.tag ∈ Decode.baseKinds)
      (start : Expr.WellFormed base) (nonempty : chain ≠ [])
      (steps : ∀ step ∈ chain, step.WellFormed) :
      Expr.WellFormed (.access base chain)
  | array {items : List Expr} (members : ∀ item ∈ items, Expr.WellFormed item) :
      Expr.WellFormed (.array items)
  | object {entries : List (String × Expr)} (members : ∀ entry ∈ entries, Expr.WellFormed entry.2) :
      Expr.WellFormed (.object entries)
  | call (function : String) {arguments : List Expr}
      (kinds : ∀ argument ∈ arguments, argument.tag ∈ Decode.argumentKinds)
      (members : ∀ argument ∈ arguments, Expr.WellFormed argument) :
      Expr.WellFormed (.call function arguments)
  | binary (op : BinaryOp) {left right : Expr} (leftKind : left.tag ∈ Decode.operandKinds)
      (leftPart : Expr.WellFormed left) (rightKind : right.tag ∈ Decode.operandKinds)
      (rightPart : Expr.WellFormed right) : Expr.WellFormed (.binary op left right)

inductive Step.WellFormed : Step → Prop where
  | property (name : String) : Step.WellFormed (.property name)
  | index {index : Expr} (place : index.WellFormed) : Step.WellFormed (.index index)
  | method (function : String) {arguments : List Expr}
      (kinds : ∀ argument ∈ arguments, argument.tag ∈ Decode.argumentKinds)
      (members : ∀ argument ∈ arguments, argument.WellFormed) :
      Step.WellFormed (.method function arguments)

end

def Parameter.WellFormed (parameter : Parameter) : Prop :=
  ∀ type ∈ parameter.hint, type.WellFormed

mutual

inductive Node.WellFormed : Node → Prop where
  | expr {value : Expr} (content : value.WellFormed) : Node.WellFormed (.expr value)
  | function (name : String) {parameters : List Parameter} {body : List Node}
      {returns : Option Ty} (doc : Option String)
      (heads : ∀ parameter ∈ parameters, parameter.WellFormed)
      (inner : ∀ node ∈ body, Node.WellFormed node) (result : ∀ type ∈ returns, type.WellFormed) :
      Node.WellFormed (.function name parameters body returns doc)
  | graphNode (name : String) {parameters : List Parameter} {body : List Node}
      {returns : Option Ty} (visibility : Option Visibility)
      (heads : ∀ parameter ∈ parameters, parameter.WellFormed)
      (inner : ∀ node ∈ body, Node.WellFormed node) (result : ∀ type ∈ returns, type.WellFormed) :
      Node.WellFormed (.graphNode name parameters body returns visibility)
  | goto (target : String) {arguments : List Expr}
      (kinds : ∀ argument ∈ arguments, argument.tag ∈ Decode.argumentKinds)
      (members : ∀ argument ∈ arguments, argument.WellFormed) :
      Node.WellFormed (.goto target arguments)
  | uses {tools : List String} (nonempty : tools ≠ []) : Node.WellFormed (.uses tools)
  | assign (name : String) {hint : Option Ty} {value : Node}
      (hinted : ∀ type ∈ hint, type.WellFormed) (kind : value.tag ∈ Node.assignedKinds)
      (content : Node.WellFormed value) : Node.WellFormed (.assign name hint value)
  | ret {value : Option Expr} (result : ∀ expr ∈ value, expr.WellFormed) :
      Node.WellFormed (.ret value)
  | hint (name : String) {type : Ty} (hinted : type.WellFormed) :
      Node.WellFormed (.hint name type)
  | ifElse {condition : Expr} {thenBody : List Node} {elseBody : Option (List Node)}
      (kind : condition.tag ∈ Decode.conditionKinds) (test : condition.WellFormed)
      (inner : ∀ node ∈ thenBody, Node.WellFormed node)
      (other : ∀ nodes ∈ elseBody, ∀ node ∈ nodes, Node.WellFormed node) :
      Node.WellFormed (.ifElse condition thenBody elseBody)
  | loop {condition : Expr} {body : List Node} (kind : condition.tag ∈ Decode.conditionKinds)
      (test : condition.WellFormed) (inner : ∀ node ∈ body, Node.WellFormed node) :
      Node.WellFormed (.loop condition body)
  | select {subject : Expr} {arms : List Arm} (value : subject.WellFormed)
      (choices : ∀ arm ∈ arms, arm.WellFormed) : Node.WellFormed (.select subject arms)
  | thread (kind : ThreadKind) {body : List Node} (inner : ∀ node ∈ body, Node.WellFormed node) :
      Node.WellFormed (.thread kind body)
  | special {name : String} {value : Expr} (known : name ∈ specialNames)
      (content : value.WellFormed) : Node.WellFormed (.special name value)
  | timed {body : List Node} (prints : Bool) (inner : ∀ node ∈ body, Node.WellFormed node) :
      Node.WellFormed (.timed body prints)
  | importNames {kind : ImportKind} {names : List String} (path : String)
      (single : kind ≠ .named → names.length = 1) : Node.WellFormed (.importNames kind names path)
  | importNodes (names : List String) (path : String) : Node.WellFormed (.importNodes names path)
  | importTools (names : List String) (path : String) : Node.WellFormed (.importTools names path)
  | comment (text : String) : Node.WellFormed (.comment text)
  | blockComment (text : String) : Node.WellFormed (.blockComment text)
  | newline : Node.WellFormed .newline

inductive Arm.WellFormed : Arm → Prop where
  | arm {value : Option Expr} {body : Node} (test : ∀ expr ∈ value, expr.WellFormed)
      (inner : body.WellFormed) : Arm.WellFormed (.arm value body)
  | comment (text : String) : Arm.WellFormed (.comment text)

end

theorem Node.cases_of_assignedKinds {value : Node} (h : value.tag ∈ Node.assignedKinds) :
    (∃ e, value = .expr e) ∨ (∃ kind body, value = .thread kind body) ∨
      ∃ body prints, value = .timed body prints := by
  cases value with
  | expr e => exact .inl ⟨e, rfl⟩
  | thread kind body => exact .inr (.inl ⟨kind, body, rfl⟩)
  | timed body prints => exact .inr (.inr ⟨body, prints, rfl⟩)
  | _ =>
    simp [Node.tag, Node.assignedKinds, Decode.expressionKinds, Decode.operandKinds,
      Decode.argumentKinds, Decode.literalKinds] at h

/-- Every node is well-formed, at every depth. -/
def Program.WellFormed (program : Program) : Prop :=
  ∀ node ∈ program.nodes, node.WellFormed

end AgentLang
