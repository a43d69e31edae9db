import AgentLang.Proofs.Json.Reader
import AgentLang.Proofs.Syntax.WellFormed
import AgentLang.Syntax.Model

/-!
# Storable values

Which values documents can hold is said by restrictions on their parts. Whatever is read from a
document meets them.
-/

namespace AgentLang

open List

/-! ### Restrictions -/

mutual

/-- Expressions stand where their kind may stand, and what must not be empty is not. Words are free,
and any storable node may be assigned. -/
inductive Node.Storable : Node → Prop where
  | expr {value : Expr} (content : value.WellFormed) : Node.Storable (.expr value)
  | parameter (parameter : Parameter) : Node.Storable (.parameter parameter)
  | function (name : String) (parameters : List Parameter) {body : List Node}
      (returns : Option Ty) (doc : Option String) (inner : ∀ node ∈ body, Node.Storable node) :
      Node.Storable (.function name parameters body returns doc)
  | graphNode (name : String) (parameters : List Parameter) {body : List Node}
      (returns : Option Ty) (visibility : Option Visibility)
      (inner : ∀ node ∈ body, Node.Storable node) :
      Node.Storable (.graphNode name parameters body returns visibility)
  | goto (target : String) {arguments : List Expr}
      (members : ∀ argument ∈ arguments, argument.tag ∈ Decode.argumentKinds ∧ argument.WellFormed) :
      Node.Storable (.goto target arguments)
  | uses {tools : List String} (nonempty : tools ≠ []) : Node.Storable (.uses tools)
  | assign (name : String) (hint : Option Ty) {value : Node} (content : Node.Storable value) :
      Node.Storable (.assign name hint value)
  | ret {value : Option Expr} (result : ∀ expr ∈ value, expr.WellFormed) :
      Node.Storable (.ret value)
  | hint (name : String) (type : Ty) : Node.Storable (.hint name type)
  | ifElse {condition : Expr} {thenBody : List Node} {elseBody : Option (List Node)}
      (test : condition.tag ∈ Decode.conditionKinds ∧ condition.WellFormed)
      (inner : ∀ node ∈ thenBody, Node.Storable node)
      (other : ∀ nodes ∈ elseBody, ∀ node ∈ nodes, Node.Storable node) :
      Node.Storable (.ifElse condition thenBody elseBody)
  | loop {condition : Expr} {body : List Node}
      (test : condition.tag ∈ Decode.conditionKinds ∧ condition.WellFormed)
      (inner : ∀ node ∈ body, Node.Storable node) : Node.Storable (.loop condition body)
  | select {subject : Expr} {arms : List Arm} (value : subject.WellFormed)
      (choices : ∀ arm ∈ arms, arm.Storable) : Node.Storable (.select subject arms)
  | thread (kind : ThreadKind) {body : List Node} (inner : ∀ node ∈ body, Node.Storable node) :
      Node.Storable (.thread kind body)
  | special (name : String) {value : Expr} (content : value.WellFormed) :
      Node.Storable (.special name value)
  | timed {body : List Node} (prints : Bool) (inner : ∀ node ∈ body, Node.Storable node) :
      Node.Storable (.timed body prints)
  | importNames (kind : ImportKind) (names : List String) (path : String) :
      Node.Storable (.importNames kind names path)
  | importNodes (names : List String) (path : String) : Node.Storable (.importNodes names path)
  | importTools (names : List String) (path : String) : Node.Storable (.importTools names path)
  | comment (text : String) : Node.Storable (.comment text)
  | blockComment (text : String) : Node.Storable (.blockComment text)
  | newline : Node.Storable .newline

inductive Arm.Storable : Arm → Prop where
  | arm {value : Option Expr} {body : Node} (test : ∀ expr ∈ value, expr.WellFormed)
      (inner : body.Storable) : Arm.Storable (.arm value body)
  | comment (text : String) : Arm.Storable (.comment text)

end

def Ty.tag : Ty → String
  | .named _ => "primitiveType"
  | .array _ => "arrayType"
  | .text _ => "stringLiteralType"
  | .number _ => "numberLiteralType"
  | .boolean _ => "booleanLiteralType"

def Segment.tag : Segment → String
  | .text _ => "text"
  | .interpolation _ => "interpolation"

def Step.tag : Step → String
  | .property _ => "property"
  | .index _ => "index"
  | .method .. => "methodCall"

def Arm.tag : Arm → String
  | .arm .. => "matchBlockCase"
  | .comment _ => "comment"

/-- A value is of the kind of the model and meets the restrictions on its parts. -/
def Model.Admits : (m : Model) → m.Value → Prop
  | .type kind, ty => Ty.tag ty = kind
  | .segment kind, part => Segment.tag part = kind
  | .step kind, link => Step.tag link = kind ∧ Step.WellFormed link
  | .entry, pair => Expr.WellFormed pair.2
  | .expr kind, e => Expr.tag e = kind ∧ Expr.WellFormed e
  | .docString, _ => True
  | .node kind, n => Node.tag n = kind ∧ Node.Storable n
  | .arm, a => Arm.tag a = "matchBlockCase" ∧ Arm.Storable a
  | .program, p => ∀ n ∈ Program.nodes p, n.Storable

/-! ### What is read is storable -/

namespace Decode

open Json (Key Checked Reader)
open Json.Checked (map_eq_valid map₂_eq_valid map₃_eq_valid map₅_eq_valid)
open Json.Reader

variable {location : List Key} {fields : Fields} {fuel : Nat} {kind : String}

theorem only_gives (kind : String) {read : Member α}
    (h : ∀ location fields value, read kind location fields = .valid value → P value) :
    (only kind read).Gives P := by
  apply Gives.model
  intro location fields value hread
  obtain ⟨-, found, -, hfound, rfl⟩ := map₂_eq_valid.mp hread
  exact h _ _ _ hfound

theorem gives_any (read : Reader α) : read.Gives fun _ => True :=
  fun _ _ _ _ => trivial

theorem typeMember_gives (hkind : kind ∈ typeKinds) {type : Ty}
    (h : typeMember fuel kind location fields = .valid type) : type.tag = kind := by
  cases fuel with
  | zero => cases h
  | succ fuel =>
    simp only [typeKinds, mem_cons, not_mem_nil, or_false] at hkind
    rcases hkind with rfl | rfl | rfl | rfl | rfl <;>
      · obtain ⟨value, -, rfl⟩ := map_eq_valid.mp h
        rfl

theorem segmentMember_gives (hkind : kind ∈ segmentKinds) {segment : Segment}
    (h : segmentMember kind location fields = .valid segment) : segment.tag = kind := by
  simp only [segmentKinds, mem_cons, not_mem_nil, or_false] at hkind
  rcases hkind with rfl | rfl <;>
    · obtain ⟨value, -, rfl⟩ := map_eq_valid.mp h
      rfl

/-- An expression of one of some kinds. -/
def IsAmong (kinds : List String) (e : Expr) : Prop := e.tag ∈ kinds ∧ e.WellFormed

theorem gives_entryMember (h : expression.Gives Expr.WellFormed)
    (hread : entryMember expression location fields = .valid entry) : entry.2.WellFormed := by
  obtain ⟨key, value, -, hvalue, rfl⟩ := map₂_eq_valid.mp hread
  exact h.required hvalue

theorem gives_entries (h : expression.Gives Expr.WellFormed)
    (hread : entries expression location fields = .valid found) :
    ∀ entry ∈ found, entry.2.WellFormed := by
  have hentry : (model (entryMember expression)).Gives fun entry => entry.2.WellFormed :=
    .model fun _ _ _ => gives_entryMember h
  exact hentry.listOf.defaulted (by simp) hread

theorem gives_callMember (h : argument.Gives (IsAmong argumentKinds))
    (hread : callMember argument location fields = .valid call) :
    ∀ value ∈ call.2, IsAmong argumentKinds value := by
  obtain ⟨function, arguments, -, harguments, rfl⟩ := map₂_eq_valid.mp hread
  exact h.listOf.defaulted (by simp) harguments

theorem gives_stepMember (hexpression : expression.Gives Expr.WellFormed)
    (hargument : argument.Gives (IsAmong argumentKinds)) (hkind : kind ∈ stepKinds)
    (h : stepMember expression argument kind location fields = .valid step) :
    step.tag = kind ∧ step.WellFormed := by
  simp only [stepKinds, mem_cons, not_mem_nil, or_false] at hkind
  rcases hkind with rfl | rfl | rfl
  · obtain ⟨name, -, rfl⟩ := map_eq_valid.mp h
    exact ⟨rfl, .property name⟩
  · obtain ⟨index, hindex, rfl⟩ := map_eq_valid.mp h
    exact ⟨rfl, .index (hexpression.required hindex)⟩
  · obtain ⟨call, hcall, rfl⟩ := map_eq_valid.mp h
    have hmembers := (only_gives "functionCall" fun _ _ _ => gives_callMember hargument).required hcall
    exact ⟨rfl, .method call.1 (fun e he => (hmembers e he).1) fun e he => (hmembers e he).2⟩

theorem exprMember_gives (fuel : Nat) : ∀ kind ∈ expressionKinds, ∀ location fields e,
    exprMember fuel kind location fields = .valid e → e.tag = kind ∧ e.WellFormed := by
  induction fuel with
  | zero =>
    intro kind hkind location fields e h
    cases h
  | succ fuel ih =>
    intro kind hkind location fields e h
    have among : ∀ kinds, kinds ⊆ expressionKinds →
        (union "type" kinds (exprMember fuel)).Gives (IsAmong kinds) := by
      intro kinds hkinds
      apply gives_union
      intro kind hkind location fields e h
      obtain ⟨htag, hwellFormed⟩ := ih kind (hkinds hkind) location fields e h
      exact ⟨htag ▸ hkind, hwellFormed⟩
    have hany : (union "type" expressionKinds (exprMember fuel)).Gives Expr.WellFormed :=
      fun _ _ _ h => (among _ (List.Subset.refl _) _ _ _ h).2
    have hargument := among argumentKinds (by decide)
    simp only [expressionKinds, operandKinds, argumentKinds, literalKinds, cons_append,
      nil_append, mem_cons, not_mem_nil, or_false] at hkind
    rcases hkind with rfl | rfl | rfl | rfl | rfl | rfl | rfl | rfl | rfl | rfl | rfl
    · obtain ⟨text, -, rfl⟩ := map_eq_valid.mp h
      exact ⟨rfl, .number text⟩
    · obtain ⟨segments, -, rfl⟩ := map_eq_valid.mp h
      exact ⟨rfl, .string segments⟩
    · obtain ⟨segments, -, rfl⟩ := map_eq_valid.mp h
      exact ⟨rfl, .multiline segments⟩
    · obtain ⟨value, -, rfl⟩ := map_eq_valid.mp h
      exact ⟨rfl, .boolean value⟩
    · obtain ⟨name, -, rfl⟩ := map_eq_valid.mp h
      exact ⟨rfl, .name name⟩
    · obtain ⟨segments, config, -, hconfig, rfl⟩ := map₂_eq_valid.mp h
      have hfields : (only "adlObject" fun _ => entries (union "type" expressionKinds
          (exprMember fuel))).Gives fun found => ∀ entry ∈ found, entry.2.WellFormed :=
        only_gives _ fun _ _ _ => gives_entries hany
      exact ⟨rfl, .prompt segments (hfields.nullable.defaulted (by simp) hconfig)⟩
    · obtain ⟨base, chain, hbase, hchain, rfl⟩ := map₂_eq_valid.mp h
      obtain ⟨hkind, hbase⟩ := (among baseKinds (by decide)).required hbase
      have hstep : (union "kind" stepKinds (stepMember (union "type" expressionKinds
          (exprMember fuel)) (union "type" argumentKinds (exprMember fuel)))).Gives Step.WellFormed :=
        gives_union fun _ hkind _ _ _ h => (gives_stepMember hany hargument hkind h).2
      obtain ⟨hne, hsteps⟩ := hstep.nonemptyOf.required hchain
      exact ⟨rfl, .access hkind hbase hne hsteps⟩
    · obtain ⟨call, hcall, rfl⟩ := map_eq_valid.mp h
      have hmembers := gives_callMember hargument hcall
      exact ⟨rfl, .call call.1 (fun e he => (hmembers e he).1) fun e he => (hmembers e he).2⟩
    · obtain ⟨found, hfound, rfl⟩ := map_eq_valid.mp h
      exact ⟨rfl, .object (gives_entries hany hfound)⟩
    · obtain ⟨items, hitems, rfl⟩ := map_eq_valid.mp h
      exact ⟨rfl, .array (hany.listOf.defaulted (by simp) hitems)⟩
    · obtain ⟨op, left, right, -, hleft, hright, rfl⟩ := map₃_eq_valid.mp h
      have hoperand := among operandKinds (by decide)
      obtain ⟨hleftKind, hleft⟩ := hoperand.required hleft
      obtain ⟨hrightKind, hright⟩ := hoperand.required hright
      exact ⟨rfl, .binary op hleftKind hleft hrightKind hright⟩

theorem expr_gives (hkinds : kinds ⊆ expressionKinds) (fuel : Nat) :
    (expr kinds fuel).Gives (IsAmong kinds) := by
  apply gives_union
  intro kind hkind location fields e h
  obtain ⟨htag, hwellFormed⟩ := exprMember_gives fuel kind (hkinds hkind) location fields e h
  exact ⟨htag ▸ hkind, hwellFormed⟩

theorem expression_gives (fuel : Nat) : (expr expressionKinds fuel).Gives Expr.WellFormed :=
  fun _ _ _ h => (expr_gives (List.Subset.refl _) fuel _ _ _ h).2

theorem gives_armMember {node : Reader Node} (hnode : node.Gives Node.Storable)
    (hkind : kind ∈ armKinds) (h : armMember fuel node kind location fields = .valid arm) :
    arm.tag = kind ∧ arm.Storable := by
  simp only [armKinds, mem_cons, not_mem_nil, or_false] at hkind
  rcases hkind with rfl | rfl
  · obtain ⟨value, body, hvalue, hbody, rfl⟩ := map₂_eq_valid.mp h
    have hvalue := (expression_gives fuel).nullable.defaulted (by simp) hvalue
    exact ⟨rfl, .arm hvalue (hnode.required hbody)⟩
  · obtain ⟨text, -, rfl⟩ := map_eq_valid.mp h
    exact ⟨rfl, .comment text⟩

theorem statement_gives (hnode : (union "type" nodeKinds (nodeMember fuel)).Gives Node.Storable)
    (hkind : kind ∈ statementKinds) (h : nodeMember (fuel + 1) kind location fields = .valid n) :
    n.tag = kind ∧ n.Storable := by
  have hbody : ∀ {name found}, defaulted name [] (listOf (union "type" nodeKinds
      (nodeMember fuel))) location fields = .valid found → ∀ n ∈ found, n.Storable :=
    hnode.listOf.defaulted (by simp)
  have hany := expression_gives fuel
  have hcondition : (expr conditionKinds fuel).Gives _ := expr_gives (by decide) fuel
  have hargument : (expr argumentKinds fuel).Gives _ := expr_gives (by decide) fuel
  simp only [statementKinds, mem_cons, not_mem_nil, or_false] at hkind
  rcases hkind with rfl | rfl | rfl | rfl | rfl | rfl | rfl | rfl | rfl | rfl | rfl | rfl | rfl |
    rfl | rfl | rfl | rfl | rfl | rfl | rfl
  · obtain ⟨parameter, -, rfl⟩ := map_eq_valid.mp h
    exact ⟨rfl, .parameter parameter⟩
  · obtain ⟨name, parameters, body, returns, doc, -, -, hinner, -, -, rfl⟩ :=
      map₅_eq_valid.mp h
    exact ⟨rfl, .function name parameters returns doc (hbody hinner)⟩
  · obtain ⟨name, parameters, body, returns, visibility, -, -, hinner, -, -, rfl⟩ :=
      map₅_eq_valid.mp h
    exact ⟨rfl, .graphNode name parameters returns visibility (hbody hinner)⟩
  · obtain ⟨target, arguments, -, hmembers, rfl⟩ := map₂_eq_valid.mp h
    exact ⟨rfl, .goto target (hargument.listOf.defaulted (by simp) hmembers)⟩
  · obtain ⟨tools, htools, rfl⟩ := map_eq_valid.mp h
    exact ⟨rfl, .uses ((gives_any text).nonemptyOf.required htools).1⟩
  · obtain ⟨name, hint, value, -, -, hvalue, rfl⟩ := map₃_eq_valid.mp h
    exact ⟨rfl, .assign name hint (hnode.required hvalue)⟩
  · obtain ⟨value, hvalue, rfl⟩ := map_eq_valid.mp h
    exact ⟨rfl, .ret (hany.nullable.defaulted (by simp) hvalue)⟩
  · obtain ⟨name, type, -, -, rfl⟩ := map₂_eq_valid.mp h
    exact ⟨rfl, .hint name type⟩
  · obtain ⟨condition, thenBody, elseBody, htest, hinner, hother, rfl⟩ := map₃_eq_valid.mp h
    have hother := hnode.listOf.nullable.defaulted (by simp) hother
    exact ⟨rfl, .ifElse (hcondition.required htest) (hbody hinner) hother⟩
  · obtain ⟨condition, body, htest, hinner, rfl⟩ := map₂_eq_valid.mp h
    exact ⟨rfl, .loop (hcondition.required htest) (hbody hinner)⟩
  · obtain ⟨subject, arms, hsubject, harms, rfl⟩ := map₂_eq_valid.mp h
    have harm : (union "type" armKinds (armMember fuel (union "type" nodeKinds
        (nodeMember fuel)))).Gives Arm.Storable :=
      gives_union fun _ hkind _ _ _ h => (gives_armMember hnode hkind h).2
    exact ⟨rfl, .select (hany.required hsubject) (harm.listOf.defaulted (by simp) harms)⟩
  · obtain ⟨kind, body, -, hinner, rfl⟩ := map₂_eq_valid.mp h
    exact ⟨rfl, .thread kind (hbody hinner)⟩
  · obtain ⟨name, value, -, hvalue, rfl⟩ := map₂_eq_valid.mp h
    exact ⟨rfl, .special name (hany.required hvalue)⟩
  · obtain ⟨body, prints, hinner, -, rfl⟩ := map₂_eq_valid.mp h
    exact ⟨rfl, .timed prints (hbody hinner)⟩
  · obtain ⟨kind, names, path, -, -, -, rfl⟩ := map₃_eq_valid.mp h
    exact ⟨rfl, .importNames kind names path⟩
  · obtain ⟨names, path, -, -, rfl⟩ := map₂_eq_valid.mp h
    exact ⟨rfl, .importNodes names path⟩
  · obtain ⟨names, path, -, -, rfl⟩ := map₂_eq_valid.mp h
    exact ⟨rfl, .importTools names path⟩
  · obtain ⟨text, -, rfl⟩ := map_eq_valid.mp h
    exact ⟨rfl, .comment text⟩
  · obtain ⟨text, -, rfl⟩ := map_eq_valid.mp h
    exact ⟨rfl, .blockComment text⟩
  · cases h
    exact ⟨rfl, .newline⟩

theorem nodeMember_expression (hkind : kind ∈ expressionKinds) :
    nodeMember (fuel + 1) kind location fields =
      Node.expr <$> exprMember fuel kind location fields := by
  simp only [expressionKinds, operandKinds, argumentKinds, literalKinds, cons_append,
    nil_append, mem_cons, not_mem_nil, or_false] at hkind
  rcases hkind with rfl | rfl | rfl | rfl | rfl | rfl | rfl | rfl | rfl | rfl | rfl <;> rfl

theorem node_gives (fuel : Nat) : (node fuel).Gives Node.Storable := by
  induction fuel with
  | zero =>
    apply gives_union
    intro kind hkind location fields n h
    cases h
  | succ fuel ih =>
    apply gives_union
    intro kind hkind location fields n h
    rcases mem_append.mp hkind with hkind | hkind
    · rw [nodeMember_expression hkind] at h
      obtain ⟨e, he, rfl⟩ := map_eq_valid.mp h
      exact .expr (exprMember_gives fuel kind hkind location fields e he).2
    · exact (statement_gives ih hkind h).2

end Decode

namespace Model

open Json.Reader

theorem read_gives (fuel : Nat) (m : Model) : (m.read fuel).Gives m.Admits := by
  cases m with
  | type kind => exact Decode.only_gives _ fun _ _ _ => Decode.typeMember_gives kind.2
  | segment kind => exact Decode.only_gives _ fun _ _ _ => Decode.segmentMember_gives kind.2
  | step kind =>
    apply Gives.model
    intro location fields step h
    obtain ⟨-, found, -, hfound, rfl⟩ := Json.Checked.map₂_eq_valid.mp h
    exact Decode.gives_stepMember (Decode.expression_gives fuel)
      (Decode.expr_gives (by decide) fuel) kind.2 hfound
  | entry =>
    exact .model fun _ _ _ => Decode.gives_entryMember (Decode.expression_gives fuel)
  | expr kind => exact Decode.only_gives _ (Decode.exprMember_gives fuel kind kind.2)
  | docString => exact Decode.gives_any _
  | node kind =>
    apply Decode.only_gives
    intro location fields n h
    cases fuel with
    | zero => cases h
    | succ fuel => exact Decode.statement_gives (Decode.node_gives fuel) kind.2 h
  | arm =>
    exact Decode.only_gives _ fun _ _ _ =>
      Decode.gives_armMember (Decode.node_gives fuel) (by decide)
  | program =>
    change (Decode.program fuel).Gives _
    rw [Decode.program]
    apply Decode.only_gives
    intro location fields p h
    obtain ⟨nodes, hnodes, rfl⟩ := Json.Checked.map_eq_valid.mp h
    exact (Decode.node_gives fuel).listOf.defaulted (by simp) hnodes

end Model
end AgentLang
