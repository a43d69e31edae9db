import AgentLang.Grammar.Source
import AgentLang.Proofs.Grammar.Reading
import AgentLang.Proofs.Parse.Yield
import AgentLang.Proofs.Syntax.WellFormed

/-!
# Parsed programs are well-formed

Every alternative of the grammar yields something of a kind that may stand in its place. There is
one fact for each parser that builds a part of a program, in the order of the grammar.
-/

namespace AgentLang

/-- A well-formed expression of one of the given kinds. -/
def Expr.Among (kinds : List String) (e : Expr) : Prop :=
  e.tag ∈ kinds ∧ e.WellFormed

theorem Expr.among {kinds : List String} {e : Expr} (kind : String) (hkind : kind ∈ kinds)
    (htag : e.tag = kind) (he : e.WellFormed) : e.Among kinds :=
  ⟨htag ▸ hkind, he⟩

theorem Expr.Among.mono {kinds kinds' : List String} (h : ∀ kind ∈ kinds, kind ∈ kinds')
    {e : Expr} (he : e.Among kinds) : e.Among kinds' :=
  ⟨h _ he.1, he.2⟩

namespace Grammar

open AgentLang.Expr (Among)
open Decode (argumentKinds conditionKinds expressionKinds literalKinds operandKinds)

/-- What a rule yields is well-formed and of a kind of the rule. -/
def Sound : (r : Rule) → r.Out → Prop
  | .type => Ty.WellFormed
  | .statement => Node.WellFormed
  | .armBody => Node.WellFormed
  | .ifElse => Node.WellFormed
  | .call => fun (call : String × List Expr) =>
    ∀ argument ∈ call.2, argument.Among argumentKinds
  | .object => fun (entries : List (String × Expr)) => ∀ entry ∈ entries, entry.2.WellFormed
  | .array => Among ["adlArray"]
  | .access => Among ["accessExpression"]
  | .binary => Among ["binOpExpression"]
  | .number => Among literalKinds
  | .scalar => Among literalKinds
  | .prompt => Among literalKinds
  | .literal => Among literalKinds
  | .argument => Among argumentKinds
  | .item => Among operandKinds
  | .operand => Among operandKinds
  | .value => Among expressionKinds
  | .condition => Among conditionKinds

/-- Everything that a parser of the language may yield has a property. -/
abbrev Makes {α : Type} (p : Parser α) (P : α → Prop) : Prop :=
  p.Ensures (fun _ => false) Sound P

/-! ### Types -/

theorem wellFormed_foldl_array (marks : List String) {base : Ty} (h : base.WellFormed) :
    (marks.foldl (fun element _ => .array element) base).WellFormed := by
  induction marks generalizing base with
  | nil => exact h
  | cons _ rest ih => exact ih (.array h)

theorem makes_type : Makes type Ty.WellFormed := fun _ h => h

theorem makes_primitiveType : Makes primitiveType Ty.WellFormed := by
  have hnames : Makes (Parse.Parser.choice [.word "number", .word "string", .word "boolean"])
      (· ∈ Ty.primitiveNames) :=
    .choice ⟨.word (by decide), .word (by decide), .word (by decide)⟩
  exact .map hnames fun _ => .named

theorem makes_baseType : Makes baseType Ty.WellFormed := by
  have harray : Makes genericArrayType Ty.WellFormed :=
    .map (.left (.left (.right makes_type))) fun _ => .array
  have htext : Makes stringLiteralType Ty.WellFormed := .map (.any _) fun _ _ => .text _
  have hnumber : Makes numberLiteralType Ty.WellFormed := .map (.token _ _) fun _ => .number
  have hboolean : Makes booleanLiteralType Ty.WellFormed := .map (.any _) fun _ _ => .boolean _
  exact .choice ⟨harray, makes_primitiveType, htext, hnumber, hboolean⟩

theorem makes_typeBody : Makes typeBody Ty.WellFormed :=
  .seq (.map makes_baseType fun _ hbase marks _ => wellFormed_foldl_array marks hbase) (.any _)

theorem makes_hint : Makes hint fun hint => ∀ type ∈ hint, type.WellFormed :=
  .optional (.right makes_type)

/-! ### Expressions -/

theorem makes_among {p : Parser Expr} {kinds kinds' : List String} (hp : Makes p (Among kinds))
    (h : ∀ kind ∈ kinds, kind ∈ kinds') : Makes p (Among kinds') :=
  hp.mono fun _ he => he.mono h

theorem makes_prompt : Makes prompt (Among literalKinds) := fun _ h => h

theorem makes_literal : Makes literal (Among literalKinds) := fun _ h => h

theorem makes_access : Makes access (Among ["accessExpression"]) := fun _ h => h

theorem makes_array : Makes array (Among ["adlArray"]) := fun _ h => h

theorem makes_item : Makes item (Among operandKinds) := fun _ h => h

theorem makes_operand : Makes operand (Among operandKinds) := fun _ h => h

theorem makes_binary : Makes binary (Among ["binOpExpression"]) := fun _ h => h

theorem makes_value : Makes value Expr.WellFormed := fun _ h => h.2

theorem makes_call :
    Makes call fun call => ∀ argument ∈ call.2, argument.Among argumentKinds :=
  fun _ h => h

theorem makes_object : Makes object fun entries => ∀ entry ∈ entries, entry.2.WellFormed :=
  fun _ h => h

theorem makes_callExpr : Makes callExpr (Among ["functionCall"]) :=
  .map makes_call fun _ h => Expr.among "functionCall" (by decide) rfl
    (.call _ (fun argument ha => (h argument ha).1) fun argument ha => (h argument ha).2)

theorem makes_objectExpr : Makes objectExpr (Among ["adlObject"]) :=
  .map makes_object fun _ h => Expr.among "adlObject" (by decide) rfl (.object h)

theorem makes_variableName : Makes variableName (Among ["variableName"]) :=
  .map (.any _) fun _ _ => Expr.among "variableName" (by decide) rfl (.name _)

theorem makes_argumentBody : Makes argumentBody (Among argumentKinds) :=
  .choice ⟨makes_among makes_prompt (by decide), makes_among makes_access (by decide),
    makes_among makes_callExpr (by decide), makes_among makes_literal (by decide)⟩

theorem makes_callBody :
    Makes callBody fun call => ∀ argument ∈ call.2, argument.Among argumentKinds := by
  have hargument : Makes argument (Among argumentKinds) := fun _ h => h
  have hname : Makes (Prod.mk <$> identifier) fun f => ∀ arguments : List Expr,
      (∀ argument ∈ arguments, argument.Among argumentKinds) →
        ∀ argument ∈ (f arguments).2, argument.Among argumentKinds :=
    .map (.any _) fun _ _ _ h => h
  exact .left (.left (.seq (.left (.left hname)) (.sepBy hargument)))

theorem makes_itemBody : Makes itemBody (Among operandKinds) :=
  .choice ⟨makes_among makes_prompt (by decide), makes_among makes_access (by decide),
    makes_among makes_callExpr (by decide), makes_among makes_objectExpr (by decide),
    makes_among makes_array (by decide), makes_among makes_literal (by decide)⟩

theorem makes_arrayBody : Makes arrayBody (Among ["adlArray"]) :=
  .map (.left (.left (.left (.right (.sepBy makes_item))))) fun _ h =>
    Expr.among "adlArray" (by decide) rfl (.array fun item hitem => (h item hitem).2)

theorem makes_objectEntry : Makes objectEntry fun entry => entry.2.WellFormed :=
  .seq (.left (.left (.left (.map (.any _) fun _ _ _ h => h.2)))) makes_item

theorem makes_objectBody : Makes objectBody fun entries => ∀ entry ∈ entries, entry.2.WellFormed :=
  .left (.left (.left (.right (.sepBy makes_objectEntry))))

theorem makes_promptBody : Makes promptBody (Among literalKinds) := by
  have hbacktick : Makes backtickPrompt (Among literalKinds) :=
    .map (.any _) fun _ _ =>
      Expr.among "prompt" (by decide) rfl (.prompt _ fun _ h => nomatch h)
  have hllm : Makes llmPrompt (Among literalKinds) :=
    .left (.left (.seq (.map (.any _) fun _ _ _ h =>
      Expr.among "prompt" (by decide) rfl (.prompt _ h)) (.optional (.right makes_object))))
  exact .choice ⟨hbacktick, hllm⟩

theorem makes_numberLiteral : Makes numberLiteral (Among literalKinds) :=
  .map (.any _) fun _ _ => Expr.among "number" (by decide) rfl (.number _)

theorem makes_scalarLiteral : Makes scalarLiteral (Among literalKinds) := by
  have hnumber : Makes number (Among literalKinds) := fun _ h => h
  exact .choice ⟨
    .map (.any _) fun _ _ => Expr.among "multiLineString" (by decide) rfl (.multiline _),
    .map (.any _) fun _ _ => Expr.among "string" (by decide) rfl (.string _), hnumber,
    .map (.any _) fun _ _ => Expr.among "boolean" (by decide) rfl (.boolean _)⟩

theorem makes_literalBody : Makes literalBody (Among literalKinds) := by
  have hscalar : Makes scalar (Among literalKinds) := fun _ h => h
  exact .choice ⟨makes_prompt, hscalar, makes_among makes_variableName (by decide)⟩

theorem makes_chainStep : Makes chainStep Step.WellFormed := by
  have hmethod : Makes methodStep Step.WellFormed :=
    .map (.right makes_call) fun _ h =>
      .method _ (fun argument ha => (h argument ha).1) fun argument ha => (h argument ha).2
  have hproperty : Makes propertyStep Step.WellFormed := .map (.any _) fun _ _ => .property _
  have hindex : Makes indexStep Step.WellFormed :=
    .map (.left (.left (.right makes_item))) fun _ h => .index h.2
  exact .choice ⟨hmethod, hproperty, hindex⟩

theorem makes_accessBody : Makes accessBody (Among ["accessExpression"]) := by
  have hbase : Makes (.choice [callExpr, variableName]) (Among Decode.baseKinds) :=
    .choice ⟨makes_among makes_callExpr (by decide), makes_among makes_variableName (by decide)⟩
  exact .seq (.map hbase fun _ hbase _ hchain => Expr.among "accessExpression" (by decide) rfl
    (.access hbase.1 hbase.2 hchain.1 hchain.2)) (.many1 (by decide) makes_chainStep)

theorem makes_binaryBody : Makes binaryBody (Among ["binOpExpression"]) :=
  .seq (.left (.seq (.left (.map makes_operand fun _ hleft _ _ _ hright =>
    Expr.among "binOpExpression" (by decide) rfl (.binary _ hleft.1 hleft.2 hright.1 hright.2)))
    (.any _))) makes_operand

theorem makes_valueBody : Makes valueBody (Among expressionKinds) :=
  .choice ⟨makes_among makes_binary (by decide), makes_among makes_prompt (by decide),
    makes_among makes_access (by decide), makes_among makes_callExpr (by decide),
    makes_among makes_array (by decide), makes_among makes_objectExpr (by decide),
    makes_among makes_literal (by decide)⟩

theorem makes_conditionBody : Makes conditionBody (Among conditionKinds) :=
  .choice ⟨makes_among makes_binary (by decide), makes_among makes_access (by decide),
    makes_among makes_callExpr (by decide), makes_among makes_literal (by decide)⟩

/-! ### Statements -/

theorem makes_statement : Makes statement Node.WellFormed := fun _ h => h

theorem makes_ifElse : Makes ifElse Node.WellFormed := fun _ h => h

theorem makes_comment : Makes comment Node.WellFormed := .map (.any _) fun _ _ => .comment _

theorem makes_bodyItem : Makes bodyItem Node.WellFormed :=
  .right (.choice ⟨.map (.any _) fun _ _ => .newline, makes_comment,
    .map (.any _) fun _ _ => .blockComment _, .left makes_statement⟩)

theorem makes_body : Makes body fun nodes => ∀ node ∈ nodes, node.WellFormed :=
  .left (.left (.right (.many makes_bodyItem)))

theorem makes_typeHint : Makes typeHint Node.WellFormed :=
  .seq (.left (.left (.left (.map (.any _) fun _ _ _ => .hint _)))) makes_type

theorem makes_specialVar : Makes specialVar Node.WellFormed := by
  have hname : Makes (.choice [.word "model", .word "messages"]) (· ∈ specialNames) :=
    .choice ⟨.word (by decide), .word (by decide)⟩
  exact .seq (.left (.left (.left (.map (.right hname) fun _ hname _ => .special hname))))
    makes_value

theorem makes_returnStatement : Makes returnStatement Node.WellFormed :=
  .map (.right (.optional (.right makes_value))) fun _ => .ret

theorem makes_usesTool : Makes usesTool Node.WellFormed :=
  .seq (.map (.any _) fun _ _ _ _ => .uses (List.cons_ne_nil _ _)) (.any _)

theorem makes_goto : Makes goto Node.WellFormed := by
  have hargument : Makes (.choice [access, callExpr, literal]) (Among argumentKinds) :=
    .choice ⟨makes_among makes_access (by decide), makes_among makes_callExpr (by decide),
      makes_among makes_literal (by decide)⟩
  have htarget : Makes (Node.goto <$> (.word "goto" *> ws1 *> identifier)) fun f =>
      ∀ arguments : List Expr, (∀ argument ∈ arguments, argument.Among argumentKinds) →
        (f arguments).WellFormed :=
    .map (.any _) fun _ _ _ h =>
      .goto _ (fun argument ha => (h argument ha).1) fun argument ha => (h argument ha).2
  exact .left (.left (.seq (.left (.left (.left htarget))) (.sepBy hargument)))

/-! ### Blocks -/

theorem makes_messageThread :
    Makes messageThread fun node => node.tag ∈ Node.assignedKinds ∧ node.WellFormed := by
  have hkind : "messageThread" ∈ Node.assignedKinds := by decide
  exact .seq (.left (.map (.any _) fun _ _ _ h => ⟨hkind, .thread _ h⟩)) makes_body

theorem makes_timeBlock :
    Makes timeBlock fun node => node.tag ∈ Node.assignedKinds ∧ node.WellFormed := by
  have hkind : "timeBlock" ∈ Node.assignedKinds := by decide
  exact .seq (.left (.map (.any _) fun _ _ _ h => ⟨hkind, .timed _ h⟩)) makes_body

theorem makes_parenthesized : Makes parenthesized (Among conditionKinds) := by
  have hcondition : Makes condition (Among conditionKinds) := fun _ h => h
  exact .left (.left (.right hcondition))

theorem makes_elseBranch : Makes elseBranch fun nodes => ∀ node ∈ nodes, node.WellFormed := by
  have hnested : Makes ((fun nested => [nested]) <$> ifElse) fun nodes =>
      ∀ node ∈ nodes, node.WellFormed :=
    .map makes_ifElse fun _ h => List.forall_mem_singleton.mpr h
  exact .right (.choice ⟨hnested, makes_body⟩)

theorem makes_ifElseBody : Makes ifElseBody Node.WellFormed :=
  .seq (.seq (.left (.map (.right makes_parenthesized) fun _ hcondition _ hthen _ helse =>
    .ifElse hcondition.1 hcondition.2 hthen helse)) makes_body) (.optional makes_elseBranch)

theorem makes_whileLoop : Makes whileLoop Node.WellFormed :=
  .seq (.left (.map (.right makes_parenthesized) fun _ hcondition _ hbody =>
    .loop hcondition.1 hcondition.2 hbody)) makes_body

theorem makes_exprStatement : Makes (Node.expr <$> value) Node.WellFormed :=
  .map makes_value fun _ => .expr

theorem makes_assignment : Makes assignment Node.WellFormed := by
  have hexpr : Makes (Node.expr <$> value) fun node =>
      node.tag ∈ Node.assignedKinds ∧ node.WellFormed :=
    .map (fun _ h => h) fun e (he : e.Among expressionKinds) =>
      ⟨List.mem_append_left _ he.1, .expr he.2⟩
  have hvalue : Makes (.choice [messageThread, timeBlock, Node.expr <$> value]) fun node =>
      node.tag ∈ Node.assignedKinds ∧ node.WellFormed :=
    .choice ⟨makes_messageThread, makes_timeBlock, hexpr⟩
  exact .seq (.left (.left (.left (.left (.seq (.map (.any _) fun _ _ _ hhint _ hvalue =>
    .assign _ hhint hvalue.1 hvalue.2) makes_hint))))) hvalue

theorem makes_caseValue : Makes caseValue fun value => ∀ e ∈ value, e.WellFormed := by
  have hdefault : Makes defaultCase fun value => ∀ e ∈ value, e.WellFormed :=
    .seq (.map (.any _) fun _ _ _ _ _ h => nomatch h) (.any _)
  have hsome : ∀ {p : Parser Expr} {kinds : List String}, Makes p (Among kinds) →
      Makes (some <$> p) fun value => ∀ e ∈ value, e.WellFormed :=
    fun hp => .map hp fun e he e' h => Option.some.inj h ▸ he.2
  exact .choice ⟨hdefault, hsome makes_access, hsome makes_literal⟩

theorem makes_armBodyBody : Makes armBodyBody Node.WellFormed :=
  .choice ⟨makes_returnStatement, makes_goto, makes_assignment, makes_exprStatement⟩

theorem makes_arm : Makes arm Arm.WellFormed := by
  have hbody : Makes armBody Node.WellFormed := fun _ h => h
  exact .left (.seq (.left (.left (.left (.map makes_caseValue fun _ hvalue _ => .arm hvalue))))
    hbody)

theorem makes_selection : Makes selection Node.WellFormed := by
  have harm : Makes (blank *> .choice [.comment <$> commentText, arm]) Arm.WellFormed :=
    .right (.choice ⟨.map (.any _) fun _ _ => .comment _, makes_arm⟩)
  exact .left (.left (.seq (.left (.left (.map (.right makes_parenthesized)
    fun _ hsubject _ => .select hsubject.2))) (.many harm)))

/-! ### Definitions and imports -/

theorem makes_parameterList :
    Makes parameterList fun parameters => ∀ parameter ∈ parameters, parameter.WellFormed := by
  have hparameter : Makes parameter Parameter.WellFormed :=
    .seq (.map (.any _) fun _ _ _ h => h) makes_hint
  exact .left (.left (.right (.sepBy hparameter)))

theorem makes_functionBody : Makes functionBody fun inner => ∀ node ∈ inner.2, node.WellFormed :=
  .left (.left (.seq (.map (.any _) fun _ _ _ h => h) (.many makes_bodyItem)))

theorem makes_functionDefinition : Makes functionDefinition Node.WellFormed :=
  .right (.commit (.seq (.left (.seq (.seq (.left (.map (.any _)
    fun _ _ _ hparameters _ hreturns _ hbody => .function _ _ hparameters hbody hreturns))
    makes_parameterList) makes_hint)) makes_functionBody))

theorem makes_graphNodeDefinition : Makes graphNodeDefinition Node.WellFormed :=
  .seq (.left (.seq (.seq (.left (.seq (.left (.left (.map (.any _)
    fun _ _ _ _ _ hparameters _ hreturns _ hbody => .graphNode _ _ hparameters hbody hreturns)))
    (.any _))) makes_parameterList) makes_hint)) makes_body

theorem makes_importStatement : Makes importStatement Node.WellFormed := by
  have hnodes : Makes nodeImport Node.WellFormed :=
    .seq (.map (.any _) fun _ _ _ _ => .importNodes _ _) (.any _)
  have htools : Makes toolImport Node.WellFormed :=
    .seq (.map (.any _) fun _ _ _ _ => .importTools _ _) (.any _)
  have hnamed : Makes namedImport Node.WellFormed :=
    .seq (.map (.any _) fun _ _ _ _ => .importNames _ fun h => absurd rfl h) (.any _)
  have hwhole : Makes namespaceImport Node.WellFormed :=
    .seq (.map (.any _) fun _ _ _ _ => .importNames _ fun _ => rfl) (.any _)
  have hmain : Makes defaultImport Node.WellFormed :=
    .seq (.map (.any _) fun _ _ _ _ => .importNames _ fun _ => rfl) (.any _)
  exact .right (.commit (.choice ⟨hnodes, htools, hnamed, hwhole, hmain⟩))

theorem makes_statementBody : Makes statementBody Node.WellFormed :=
  .choice ⟨makes_importStatement, makes_functionDefinition, makes_graphNodeDefinition,
    makes_typeHint, makes_specialVar, makes_returnStatement, makes_goto, makes_usesTool,
    makes_ifElse, makes_whileLoop, makes_selection, makes_messageThread.mono fun _ h => h.2,
    makes_timeBlock.mono fun _ h => h.2, makes_assignment, makes_exprStatement⟩

/-! ### Programs -/

theorem makes_bodyOf (r : Rule) : Makes (bodyOf r) (Sound r) := by
  cases r with
  | type => exact makes_typeBody
  | argument => exact makes_argumentBody
  | item => exact makes_itemBody
  | statement => exact makes_statementBody
  | armBody => exact makes_armBodyBody
  | ifElse => exact makes_ifElseBody
  | number => exact makes_numberLiteral
  | scalar => exact makes_scalarLiteral
  | call => exact makes_callBody
  | array => exact makes_arrayBody
  | object => exact makes_objectBody
  | prompt => exact makes_promptBody
  | literal => exact makes_literalBody
  | access => exact makes_accessBody
  | operand => exact makes_itemBody
  | binary => exact makes_binaryBody
  | value => exact makes_valueBody
  | condition => exact makes_conditionBody

theorem makes_program : Makes program Program.WellFormed :=
  .map (.left (.left (.many makes_bodyItem))) fun _ h => h

theorem makes_run? {p : Parser α} {P : α → Prop} (hp : Makes p P) {value : α}
    (h : run? p text pos = some ⟨.success value next, reach⟩) : P value := by
  obtain ⟨⟨reply, memory⟩, hsession, rfl⟩ := Option.map_eq_some_iff.mp h
  have hgives := Parse.Grammar.session_yields (fun r _ => body_not_nullable r) makes_bodyOf
    (Nat.le_refl _) (Parse.Cursor.on_ofPos text pos) hsession
  exact hp value (Parse.Reply.gives_success.mp hgives)

end Grammar

namespace Program

theorem run?_of_parse (h : parse source file = .ok program) :
    ∃ next reach,
      Grammar.run? Grammar.program source.toList 0 = some ⟨.success program next, reach⟩ := by
  unfold parse at h
  split at h
  next parsed next reach heq =>
    cases h
    exact ⟨next, reach, heq⟩
  next => exact nomatch h
  next => exact nomatch h

theorem makes_parse {P : Program → Prop} (hP : Grammar.Makes Grammar.program P)
    (h : parse source file = .ok program) : P program := by
  obtain ⟨next, reach, hrun⟩ := run?_of_parse h
  exact Grammar.makes_run? hP hrun

/-- A program that was read is well-formed. -/
theorem parse_wellFormed {source : String} {file : Option Path} {program : Program}
    (h : parse source file = .ok program) : program.WellFormed :=
  makes_parse Grammar.makes_program h

theorem parse_wellFormed_special :
    ∃ program, parse "@model = a.b(1) + c\nuses e" none = .ok program ∧ program.WellFormed := by
  have h : parse "@model = a.b(1) + c\nuses e" none = .ok ⟨[
      .special "model" (.binary .add (.access (.name "a") [.method "b" [.number "1"]]) (.name "c")),
      .newline, .uses ["e"]]⟩ :=
    parse_eq_ok 12 rfl rfl
  exact ⟨_, h, parse_wellFormed h⟩

end Program
end AgentLang
