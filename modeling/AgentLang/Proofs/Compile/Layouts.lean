import AgentLang.Proofs.Compile.Alike
import AgentLang.Proofs.Compile.Discipline
import AgentLang.Proofs.Grammar.Reading
import AgentLang.Proofs.Syntax.Traversal
import AgentLang.Proofs.Syntax.Walk

/-!
# Two layouts of one program

A script and a module around a graph are laid out in different ways, but every node asks for the same
prompts in both. So the prompt functions of the two modules come in the same order, take the same
parameters, send the same text and offer the same tools.
-/

namespace AgentLang.Compile

open List
open Build
open State (Beside Keeps)
open Target (Choice Code Section Stmt)
open Target.Stmt (choiceParts listParts listParts_append otherwiseParts)

variable {here there : Setting} {schemas aligned : Prop} {special : String → Prop}

/-! ### Expressions -/

theorem alike_responseSchema (h : schemas → aligned) :
    Alike (Beside schemas aligned special) responseSchema responseSchema fun schema other =>
      schemas → schema = other := by
  have hschema {u u' : State} {found : Json} (hu : responseSchema u = (.ok found, u')) :
      u' = u ∧ Ty.responseSchema? u.context.expectedType = some found := by
    unfold responseSchema at hu
    obtain ⟨_, _, hget, hrest⟩ := bind_ok hu
    cases hget
    change ofOption _ (Ty.responseSchema? u.context.expectedType) u = (.ok found, u') at hrest
    cases hfound : Ty.responseSchema? u.context.expectedType with
    | none =>
      rw [hfound] at hrest
      exact nomatch congrArg Prod.fst hrest
    | some value =>
      rw [hfound] at hrest
      cases hrest
      exact ⟨rfl, rfl⟩
  intro s t hst schema other s' t' hs ht
  obtain ⟨rfl, hs⟩ := hschema hs
  obtain ⟨rfl, ht⟩ := hschema ht
  refine ⟨fun hschemas => ?_, hst⟩
  rw [Context.expectedType, hst.inner (h hschemas)] at hs
  exact Option.some.inj (hs.symm.trans ht)

/-- Where schemas count and something is asked, the states are aligned. -/
def Minds (schemas aligned : Prop) (asked : List (List Segment)) : Prop :=
  schemas → asked ≠ [] → aligned

namespace Minds

variable {asked others : List (List Segment)}

theorem left (h : Minds schemas aligned (asked ++ others)) : Minds schemas aligned asked :=
  fun hschemas hne => h hschemas (append_ne_nil_of_left_ne_nil hne _)

theorem right (h : Minds schemas aligned (asked ++ others)) : Minds schemas aligned others :=
  fun hschemas hne => h hschemas (append_ne_nil_of_right_ne_nil _ hne)

theorem of_cons (h : Minds schemas aligned (segments :: asked)) : schemas → aligned :=
  fun hschemas => h hschemas (cons_ne_nil _ _)

theorem always : Minds schemas True asked := fun _ _ => trivial

end Minds

mutual

theorem alike_expr (e : Expr) (h : Minds schemas aligned e.asked) :
    Alike (Beside schemas aligned special) (expr here e) (expr there e) fun _ _ => True := by
  cases e with
  | number | string | multiline | boolean | name => exact alike_pure trivial
  | prompt segments config =>
    refine (quiet_nextIndex.alike quiet_nextIndex).bind fun _ _ _ => ?_
    refine (alike_responseSchema h.right.of_cons).bind fun _ _ hschema => ?_
    refine (alike_configEntries config h.left).bind fun _ _ _ => ?_
    refine alike_takeTools.bind fun _ _ htools => ?_
    refine (alike_hoist ?_).bind fun _ _ _ => alike_pure trivial
    exact .cons ⟨rfl, rfl, htools, hschema⟩ .nil
  | access base chain =>
    exact (alike_expr base h.left).bind fun _ _ _ => (alike_links chain h.right).bind fun _ _ _ =>
      alike_pure trivial
  | array items => exact (alike_exprs items h).bind fun _ _ _ => alike_pure trivial
  | object entries => exact (alike_exprEntries entries h).bind fun _ _ _ => alike_pure trivial
  | call function arguments =>
    exact (alike_exprs arguments h).bind fun _ _ _ =>
      ((quiet_callCode here function _).alike (quiet_callCode there function _)).mono
        fun _ _ _ => trivial
  | binary _ first second =>
    exact (alike_expr first h.left).bind fun _ _ _ => (alike_expr second h.right).bind
      fun _ _ _ => alike_pure trivial

theorem alike_exprs (es : List Expr) (h : Minds schemas aligned (Expr.listAsked es)) :
    Alike (Beside schemas aligned special) (exprs here es) (exprs there es) fun _ _ => True := by
  cases es with
  | nil => exact alike_pure trivial
  | cons e rest =>
    exact (alike_expr e h.left).bind fun _ _ _ => (alike_exprs rest h.right).bind fun _ _ _ =>
      alike_pure trivial

theorem alike_exprEntries (entries : List (String × Expr))
    (h : Minds schemas aligned (Expr.entriesAsked entries)) :
    Alike (Beside schemas aligned special) (exprEntries here entries) (exprEntries there entries)
      fun _ _ => True := by
  match entries, h with
  | [], _ => exact alike_pure trivial
  | (_, e) :: rest, h =>
    exact (alike_expr e h.left).bind fun _ _ _ => (alike_exprEntries rest h.right).bind
      fun _ _ _ => alike_pure trivial

theorem alike_configEntries (config : Option (List (String × Expr)))
    (h : Minds schemas aligned (Expr.configAsked config)) :
    Alike (Beside schemas aligned special) (configEntries here config) (configEntries there config)
      fun _ _ => True := by
  cases config with
  | none => exact alike_pure trivial
  | some entries => exact (alike_exprEntries entries h).bind fun _ _ _ => alike_pure trivial

theorem alike_links (chain : List Step) (h : Minds schemas aligned (Expr.chainAsked chain)) :
    Alike (Beside schemas aligned special) (links here chain) (links there chain)
      fun _ _ => True := by
  match chain, h with
  | [], _ => exact alike_pure trivial
  | .property _ :: rest, h => exact (alike_links rest h).bind fun _ _ _ => alike_pure trivial
  | .index e :: rest, h =>
    exact (alike_expr e h.left).bind fun _ _ _ => (alike_links rest h.right).bind fun _ _ _ =>
      alike_pure trivial
  | .method _ arguments :: rest, h =>
    exact (alike_exprs arguments h.left).bind fun _ _ _ => (alike_links rest h.right).bind
      fun _ _ _ => alike_pure trivial

end

/-! ### Parts of statements -/

theorem Shows.agree {names names' : List (List String)} {stmts others : List Stmt}
    (h : Shows names stmts) (h' : Shows names' others) :
    Agree schemas (listParts stmts) (listParts others) :=
  .of_none h.prompts h'.prompts

theorem alike_useTools (tools : List String) :
    Alike (Beside schemas aligned special) (useTools here tools) (useTools there tools)
      fun _ _ => True := by
  unfold useTools
  induction tools with
  | nil => exact alike_pure trivial
  | cons tool rest ih =>
    simp only [forM_eq_forM, forM_cons] at ih ⊢
    refine Alike.bind (Q := fun _ _ => True) ?_ fun _ _ _ => ih
    -- A tool that one side does not know ends the comparison.
    split
    · split
      · exact alike_offerTool tool
      · exact (fails_fail _).alike_right
    · exact (fails_fail _).alike

theorem alike_returned (value : Option Expr) :
    Alike (Beside schemas True special) (returned here value) (returned there value)
      fun _ _ => True := by
  cases value with
  | none => exact alike_pure trivial
  | some e =>
    intro s t hst a b s' t' hs ht
    obtain ⟨_, _, hget, hs⟩ := bind_ok hs
    obtain ⟨_, _, hget', ht⟩ := bind_ok ht
    cases hget
    cases hget'
    have hexpr : Alike (Beside schemas True special)
        (expecting s.context.returnType (expr here e))
        (expecting t.context.returnType (expr there e)) fun _ _ => True :=
      (alike_expr e fun _ _ => hst.returnType).expecting
    exact (hexpr.map (S := fun _ _ => True) fun _ _ _ => trivial) s t hst a b s' t' hs ht

theorem alike_specialStmt (name : String) (value : Expr) :
    Alike (Beside schemas True special) (specialStmt here name value) (specialStmt there name value)
      fun stmt other => Shows [] [stmt] ∧ Shows [] [other] := by
  unfold specialStmt
  split
  · exact (alike_expr value .always).bind fun _ _ _ => alike_pure ⟨⟨rfl, rfl⟩, rfl, rfl⟩
  · split
    · exact (alike_expr value .always).bind fun _ _ _ => alike_pure ⟨⟨rfl, rfl⟩, rfl, rfl⟩
    · exact (fails_fail _).alike

/-! ### Statements -/

/-- What a node must keep to. A name that gets its type from a parameter of a graph node is special,
and a value with a prompt is only given to a special name together with a type. -/
def Spares (schemas : Prop) (special : String → Prop) : Node → Prop
  | .graphNode _ parameters _ _ _ =>
    ∀ parameter ∈ parameters, parameter.hint.isSome → special parameter.name
  | .assign name none (.expr value) => schemas → value.asked ≠ [] → ¬special name
  | _ => True

/-- Statements whose prompts are all inside of them. -/
theorem Agree.inside (h : Agree schemas parts others)
    (hstmt : stmt.parts.filterMap Stmt.prompt? = parts.filterMap Stmt.prompt?)
    (hstmt' : stmt'.parts.filterMap Stmt.prompt? = others.filterMap Stmt.prompt?) :
    Agree schemas (listParts [stmt]) (listParts [stmt']) := by
  unfold Agree
  rw [Stmt.listParts_singleton, Stmt.listParts_singleton, hstmt, hstmt']
  exact h

theorem prompts_defineNode (name : String) (parameters : List Parameter) (inner : List Node)
    (stmts : List Stmt) :
    (Stmt.defineNode name
      ((if parameters.isEmpty then [] else [Stmt.unpack (parameters.map (·.name))]) ++ stmts ++
        if endsInTransfer inner then [] else [Stmt.retState])).parts.filterMap Stmt.prompt? =
      (listParts stmts).filterMap Stmt.prompt? := by
  rw [Stmt.parts, filterMap_cons_none rfl, filterMap_graphBody (fun _ => rfl) rfl]

variable {declared declared' : Declared}

mutual

theorem alike_node (n : Node) (h : ∀ m ∈ n.walk true, Spares schemas special m) :
    Alike (Beside schemas True special) (node ⟨.script, declared⟩ n) (node ⟨.graph, declared'⟩ n)
      fun stmts others => Agree schemas (listParts stmts) (listParts others) := by
  have hself := h n (Node.mem_walk_self true n)
  cases n with
  | expr value =>
    exact (alike_expr value .always).bind fun _ _ _ => alike_pure (.of_none rfl rfl)
  | parameter parameter =>
    exact ((moves_parameterCode parameter).quiet.alike (moves_parameterCode parameter).quiet).bind
      fun _ _ _ => alike_pure (.of_none rfl rfl)
  | function name parameters inner returns doc =>
    have hinner : ∀ m ∈ Node.walkList true inner, Spares schemas special m :=
      (forall_mem_cons.mp h).2
    exact ((moves_parameterList parameters).quiet.alike (moves_parameterList parameters).quiet).bind
      fun _ _ _ => ((moves_typeCode? returns).quiet.alike (moves_typeCode? returns).quiet).bind
      fun _ _ _ => (alike_storeParameterHints parameters).bind
      fun _ _ _ => ((alike_body false inner hinner).inDefinition _ returns).bind
      fun _ _ hagree => alike_pure (hagree.inside rfl rfl)
  | graphNode name parameters inner returns visibility =>
    have hinner : ∀ m ∈ Node.walkList true inner, Spares schemas special m :=
      (forall_mem_cons.mp h).2
    refine .after (moves_parameterList parameters).quiet fun _ _ => ?_
    refine .after (moves_typeCode? returns).quiet fun _ _ => ?_
    refine .before_hints hself ?_
    exact ((alike_body false inner hinner).inDefinition _ returns).bind fun _ _ hagree =>
      alike_pure (hagree.inside rfl (prompts_defineNode name parameters inner _))
  | goto target arguments =>
    exact (alike_exprs arguments .always).bind fun _ _ _ =>
      ((quiet_gotoStmt _ target _).alike (quiet_gotoStmt _ target _)).bind
      fun _ _ hstmts => alike_pure (hstmts.1.agree hstmts.2)
  | uses tools => exact (alike_useTools tools).bind fun _ _ _ => alike_pure (.of_none rfl rfl)
  | assign name hint value =>
    have hvalue : ∀ m ∈ value.walk true, Spares schemas special m := (forall_mem_cons.mp h).2
    cases value with
    | thread kind inner =>
      exact ((quiet_fresh _).alike (quiet_fresh _)).bind fun _ _ _ =>
        (alike_body false inner (forall_mem_cons.mp hvalue).2).bind
        fun _ _ hagree => alike_pure (hagree.inside rfl rfl)
    | timed inner prints =>
      exact (quiet_nextIndex.alike quiet_nextIndex).bind fun _ _ _ =>
        (alike_body false inner (forall_mem_cons.mp hvalue).2).bind
        fun _ _ hagree => alike_pure (hagree.inside rfl rfl)
    | expr value =>
      have hminds (known other : Option Ty)
          (hknown : (hint = none → ¬special name) → known = other) :
          Minds schemas (known = other) value.asked := by
        intro hschemas hasked
        refine hknown ?_
        rintro rfl
        exact hself hschemas hasked
      -- The hint and what is known of the name behind it are one step here.
      simp only [node, ← bind_assoc]
      exact ((alike_hinted name hint).bind fun known other hknown =>
          (alike_expr value (hminds known other hknown)).expecting).bind fun _ _ _ =>
        ((moves_allowedTypeCode hint).quiet.alike (moves_allowedTypeCode hint).quiet).bind
        fun _ _ _ => alike_pure (.of_none rfl rfl)
    | parameter parameter =>
      exact (alike_storeHint? name hint).bind fun _ _ _ =>
        ((moves_parameterCode parameter).quiet.alike (moves_parameterCode parameter).quiet).bind fun _ _ _ =>
        ((moves_allowedTypeCode hint).quiet.alike (moves_allowedTypeCode hint).quiet).bind
        fun _ _ _ => alike_pure (.of_none rfl rfl)
    | _ =>
      -- Any other value is refused.
      exact (Fails.behind fun _ => .behind fun _ => .behind fun _ => fails_fail _).alike
  | ret value =>
    exact (alike_returned value).bind fun _ _ _ =>
      ((quiet_retStmt _ _).alike (quiet_retStmt _ _)).bind
      fun _ _ hstmts => alike_pure (hstmts.1.agree hstmts.2)
  | hint name type =>
    have hquiet (setting : Setting) : Quiet (annotationsAllowed setting >>= fun allowed =>
        if allowed then typeCode type >>= fun code => pure [Stmt.annotate name code] else pure [])
        fun stmts => (listParts stmts).filterMap Stmt.prompt? = [] := by
      refine moves_annotationsAllowed.quiet.bind fun allowed _ => ?_
      split
      · exact (moves_typeCode type).quiet.bind fun _ _ => quiet_pure rfl
      · exact quiet_pure rfl
    exact (alike_storeHint name type).bind fun _ _ _ =>
      ((hquiet _).alike (hquiet _)).mono fun _ _ hnone => .of_none hnone.1 hnone.2
  | ifElse condition thenBody elseBody =>
    have hbodies := forall_mem_append.mp (forall_mem_cons.mp h).2
    refine (alike_expr condition .always).bind fun _ _ _ => ?_
    refine (alike_body false thenBody hbodies.1).bind fun _ _ hthen => ?_
    refine (alike_elseBranches elseBody hbodies.2).bind fun _ _ helse => alike_pure ?_
    have hagree := hthen.append helse
    rw [← append_assoc, ← append_assoc] at hagree
    exact hagree.inside rfl rfl
  | loop condition inner =>
    exact (alike_expr condition .always).bind fun _ _ _ =>
      (alike_body false inner (forall_mem_cons.mp h).2).bind
      fun _ _ hagree => alike_pure (hagree.inside rfl rfl)
  | select subject arms =>
    refine ((quiet_fresh _).alike (quiet_fresh _)).bind fun _ _ _ => ?_
    refine (alike_expr subject .always).bind fun _ _ _ => ?_
    exact (alike_choices arms (forall_mem_cons.mp h).2).bind fun _ _ hagree =>
      alike_pure (hagree.inside rfl rfl)
  | thread kind inner =>
    exact ((quiet_fresh _).alike (quiet_fresh _)).bind fun _ _ _ =>
      (alike_body false inner (forall_mem_cons.mp h).2).bind
      fun _ _ hagree => alike_pure (hagree.inside rfl rfl)
  | special name value =>
    exact (alike_specialStmt name value).bind fun _ _ hstmts =>
      alike_pure (hstmts.1.agree hstmts.2)
  | timed inner prints =>
    exact (quiet_nextIndex.alike quiet_nextIndex).bind fun _ _ _ =>
      (alike_body false inner (forall_mem_cons.mp h).2).bind
      fun _ _ hagree => alike_pure (hagree.inside rfl rfl)
  | importNames kind names path =>
    exact ((quiet_importStmt kind names path).alike (quiet_importStmt kind names path)).bind
      fun _ _ hstmts => alike_pure (hstmts.1.agree hstmts.2)
  | importNodes | importTools | comment => exact alike_pure (.of_none rfl rfl)
  | blockComment text =>
    have hnone : (listParts ((noteLines text).map .note)).filterMap Stmt.prompt? = [] := by
      induction noteLines text with
      | nil => rfl
      | cons line rest ih => exact ih
    exact alike_pure (.of_none hnone hnone)
  | newline => exact alike_pure (.of_none rfl rfl)
termination_by structural n

theorem alike_body (afterLineEnd : Bool) (inner : List Node)
    (h : ∀ m ∈ Node.walkList true inner, Spares schemas special m) :
    Alike (Beside schemas True special) (body ⟨.script, declared⟩ afterLineEnd inner)
      (body ⟨.graph, declared'⟩ afterLineEnd inner)
      fun stmts others => Agree schemas (listParts stmts) (listParts others) := by
  cases inner with
  | nil => exact alike_pure (.of_none rfl rfl)
  | cons first rest =>
    have hnodes := forall_mem_append.mp h
    have hfirst := (alike_node first hnodes.1).collecting
    have hrest (b : Bool) := alike_body b rest hnodes.2
    by_cases hline : first = .newline
    · rw [hline, body_newline, body_newline]
      refine (hrest true).bind fun _ _ hagree => alike_pure ?_
      split
      · exact hagree
      · exact hagree
    · rw [body_cons hline, body_cons hline]
      refine hfirst.bind fun _ _ hfirst => (hrest false).bind fun _ _ hrest => alike_pure ?_
      simp only [listParts_append]
      exact (hfirst.1.append hfirst.2).append hrest
termination_by structural inner

theorem alike_elseBranches (other : Option (List Node))
    (h : ∀ m ∈ Node.walkOption true other, Spares schemas special m) :
    Alike (Beside schemas True special) (elseBranches ⟨.script, declared⟩ other)
      (elseBranches ⟨.graph, declared'⟩ other) fun first second =>
        Agree schemas (Stmt.branchParts first.1 ++ otherwiseParts first.2)
          (Stmt.branchParts second.1 ++ otherwiseParts second.2) := by
  cases other with
  | none => exact alike_pure (.of_none rfl rfl)
  | some nodes =>
    -- Unless a single branching continues the chain, the nodes are a body.
    have hbody := alike_body false nodes h
    cases nodes with
    | nil => exact hbody.bind fun _ _ hagree => alike_pure hagree
    | cons n rest =>
      cases rest with
      | cons second others => cases n <;> exact hbody.bind fun _ _ hagree => alike_pure hagree
      | nil =>
        cases n with
        | ifElse condition thenBody elseBody =>
          have hnested := (forall_mem_append.mp h).1
          have hbodies := forall_mem_append.mp (forall_mem_cons.mp hnested).2
          refine (alike_expr condition .always).bind fun _ _ _ => ?_
          refine (alike_body false thenBody hbodies.1).bind fun _ _ hthen => ?_
          refine (alike_elseBranches elseBody hbodies.2).bind fun _ _ helse => alike_pure ?_
          have hagree := hthen.append helse
          rwa [← append_assoc, ← append_assoc] at hagree
        | _ => exact hbody.bind fun _ _ hagree => alike_pure hagree
termination_by structural other

theorem alike_choices (arms : List Arm)
    (h : ∀ m ∈ Node.walkArms true arms, Spares schemas special m) :
    Alike (Beside schemas True special) (choices ⟨.script, declared⟩ arms)
      (choices ⟨.graph, declared'⟩ arms) fun first second =>
        Agree schemas (choiceParts first.1 ++ otherwiseParts first.2)
          (choiceParts second.1 ++ otherwiseParts second.2) := by
  match arms, h with
  | [], _ => exact alike_pure (.of_none rfl rfl)
  | .comment text :: rest, h => exact (alike_choices rest h).bind fun _ _ hagree => alike_pure hagree
  | .arm none inner :: rest, h =>
    refine (alike_node inner (forall_mem_append.mp h).1).collecting.bind
      fun _ _ hinner => alike_pure ?_
    simp only [choiceParts, otherwiseParts, listParts_append]
    exact hinner.1.append hinner.2
  | .arm (some value) inner :: rest, h =>
    have hnodes := forall_mem_append.mp h
    refine (alike_expr value .always).bind fun _ _ _ => ?_
    refine (alike_node inner hnodes.1).collecting.bind fun _ _ hinner => ?_
    refine (alike_choices rest hnodes.2).bind fun _ _ hrest => alike_pure ?_
    simp only [choiceParts, listParts_append, append_assoc]
    exact hinner.1.append (hinner.2.append hrest)
termination_by structural arms

end

/-! ### The top level -/

/-- Two states beside each other outside of all scopes. -/
def Outside (schemas : Prop) (special : String → Prop) (s t : State) : Prop :=
  Beside schemas True special s t ∧ s.context.frames = [] ∧ t.context.frames = []

section

variable {α β : Type} {step : Build α} {other : Build β} {Q : α → β → Prop}

theorem Outside.of_right (h : Outside schemas special s t) (ht : t.SameButNumbers t') :
    Outside schemas special s t' :=
  ⟨h.1.of_right ht, h.2.1, by rw [ht.2]; exact h.2.2⟩

theorem Build.Alike.outside (h : Alike (Beside schemas True special) step other Q)
    (hstep : Moves Keeps step) (hother : Moves Keeps other) :
    Alike (Outside schemas special) step other Q := by
  rintro s t ⟨hst, hs, ht⟩ a b s' t' hleft hright
  obtain ⟨hab, hst'⟩ := h s t hst a b s' t' hleft hright
  have hkeeps := (hstep s).frames
  have hkeeps' := (hother t).frames
  rw [hleft] at hkeeps
  rw [hright] at hkeeps'
  exact ⟨hab, hst', hkeeps.trans hs, hkeeps'.trans ht⟩

theorem Build.Alike.inStep (h : Alike (Beside schemas True special) step other Q)
    (hstep : Moves Keeps step) (hother : Moves Keeps other) :
    Alike (Outside schemas special) step (inScope .step none other) Q := by
  rintro s t ⟨hst, hs, ht⟩ a b s' t' hleft hright
  have hkeeps := (hstep s).frames
  have hkeeps' := (keeps_inScope .step none hother t).frames
  rw [hleft] at hkeeps
  rw [hright] at hkeeps'
  obtain ⟨after, hinner, rfl⟩ := between_ok hright
  have hopened : Beside schemas True special s { t with context := t.context.enter ⟨.step, none⟩ } := by
    refine ⟨hst.tools, .inr ?_, hst.hoisted, hst.hints, hst.outer, hst.inner⟩
    rw [hs]
    change none :: t.context.frames.map Frame.returns = _
    rw [ht]
    rfl
  obtain ⟨hab, hafter⟩ := h s _ hopened a b s' after hleft hinner
  refine ⟨hab, ⟨hafter.tools, .inl ?_, hafter.hoisted, hafter.hints, hafter.outer, hafter.inner⟩,
    hkeeps.trans hs, hkeeps'.trans ht⟩
  rw [hkeeps, hkeeps', hs, ht]

end

/-- The prompts of a statement and those ahead of it, against those of sections. -/
def Laid (schemas : Prop) (laid : List Stmt × List Stmt) (sections : List Section) : Prop :=
  Agree schemas (listParts laid.1 ++ listParts laid.2) (sections.flatMap Section.parts)

theorem alike_statement (h : ∀ m ∈ n.walk true, Spares schemas special m) :
    Alike (Beside schemas True special) (collecting (node ⟨.script, declared⟩ n))
      (statement ⟨.graph, declared'⟩ n)
      fun laid stmts => Laid schemas laid [.statements stmts] := by
  refine (alike_node n h).collecting.then_pure fun laid other hagree => ?_
  simpa [Laid, Section.parts, listParts_append] using hagree.1.append hagree.2

/-- A plain value is a statement in one layout and is held in the other. -/
theorem alike_value (value : Expr) :
    Alike (Beside schemas True special) (node ⟨.script, declared⟩ (.expr value))
      (expr ⟨.graph, declared'⟩ value)
      fun stmts _ => (listParts stmts).filterMap Stmt.prompt? = [] := by
  rw [← bind_pure (expr ⟨.graph, declared'⟩ value)]
  exact (alike_expr value .always).bind fun _ _ _ => alike_pure rfl

theorem alike_stepBody (h : ∀ m ∈ n.walk true, Spares schemas special m) :
    Alike (Beside schemas True special) (collecting (node ⟨.script, declared⟩ n))
      (stepBody ⟨.graph, declared'⟩ n)
      fun laid stmts => Laid schemas laid [.statements stmts] := by
  unfold stepBody
  split
  next value hvalue =>
    obtain rfl := plainValue?_eq_some hvalue
    refine .before (fun _ _ _ => Beside.of_right) (quiet_fresh _) fun holder _ => ?_
    refine (alike_value value).collecting.then_pure fun laid other hagree => ?_
    have hheld : [Stmt.hold holder other.2, .retHeld holder].filterMap Stmt.prompt? = [] := rfl
    simpa [Laid, Section.parts, listParts_append, listParts, Stmt.parts] using
      hagree.1.append (.of_none hagree.2 hheld)
  next =>
    refine (alike_statement h).then_pure fun laid stmts hlaid => ?_
    split
    · rwa [append_nil]
    · have hnone : Agree schemas [] [.retState] := .of_none rfl rfl
      have hclosed := hlaid.append hnone
      simpa [Laid, Section.parts, listParts_append, listParts, Stmt.parts] using hclosed

theorem alike_nodeSections (h : ∀ m ∈ n.walk true, Spares schemas special m) (hline : n ≠ .newline) :
    Alike (Outside schemas special) (collecting (node ⟨.script, declared⟩ n))
      (nodeSections ⟨.graph, declared'⟩ n) (Laid schemas) := by
  have hkeeps : Moves Keeps (collecting (node ⟨.script, declared⟩ n)) :=
    keeps_collecting (keeps_node n)
  have hkeeps' : Moves Keeps (statement ⟨.graph, declared'⟩ n) := keeps_statement n
  have hstatement := (alike_statement h).outside hkeeps hkeeps'
  unfold nodeSections
  split
  · exact absurd rfl hline
  · rw [← bind_pure (collecting _)]
    refine hstatement.bind fun laid stmts hlaid => ?_
    refine .before (fun _ _ _ => Outside.of_right) (quiet_fresh _) fun _ _ => alike_pure ?_
    simpa [Laid, Section.parts] using hlaid
  · refine hstatement.then_pure fun laid stmts hlaid => ?_
    split
    · simpa [Laid, Section.parts] using hlaid
    · exact hlaid
  · split
    · exact hstatement.then_pure fun _ _ hlaid => hlaid
    · refine .then_pure (Q := fun laid «section» => Laid schemas laid [«section»]) ?_
        fun _ _ hlaid => hlaid
      refine .before (fun _ _ _ => Outside.of_right) (quiet_fresh _) fun temp _ => ?_
      exact ((alike_stepBody h).inStep hkeeps (keeps_stepBody n)).then_pure fun _ _ hlaid => hlaid

theorem alike_sections (nodes : List Node) (afterLineEnd : Bool)
    (h : ∀ m ∈ Node.walkList true nodes, Spares schemas special m) :
    Alike (Outside schemas special) (body ⟨.script, declared⟩ afterLineEnd nodes)
      (nodes.mapM (nodeSections ⟨.graph, declared'⟩)) fun stmts sections =>
        Agree schemas (listParts stmts) (sections.flatten.flatMap Section.parts) := by
  induction nodes generalizing afterLineEnd with
  | nil => exact alike_pure (.of_none rfl rfl)
  | cons first rest ih =>
    have hnodes := forall_mem_append.mp h
    rw [mapM_cons]
    by_cases hline : first = .newline
    · subst hline
      change Alike _ (body ⟨.script, declared⟩ true rest >>= fun stmts => pure _)
        (rest.mapM (nodeSections ⟨.graph, declared'⟩) >>= fun others => pure ([] :: others)) _
      refine (ih true hnodes.2).bind fun stmts sections hagree => alike_pure ?_
      split
      · exact hagree
      · exact hagree
    · rw [body_cons hline]
      refine (alike_nodeSections hnodes.1 hline).bind fun laid sections hlaid => ?_
      refine (ih false hnodes.2).bind fun stmts others hagree => alike_pure ?_
      simpa [listParts_append] using hlaid.append hagree

end AgentLang.Compile

namespace AgentLang.Program

open Compile (Agree Matches Spares)

variable {program : Program} {scriptOptions graphOptions : CompileOptions}
  {script graph : Compiled}

/-- The prompts of the two layouts of a program whose nodes keep to what is asked of them. -/
theorem prompts_match (hscript : scriptOptions.backend = .script)
    (hgraph : graphOptions.backend = .graph) (h : program.compile scriptOptions = .ok script)
    (h' : program.compile graphOptions = .ok graph)
    (hspares : ∀ n ∈ Node.walkList true program.nodes, Spares schemas special n) :
    List.Forall₂ (Matches schemas) script.module.prompts graph.module.prompts := by
  have hsections := sections_of_compile h
  have hsections' := sections_of_compile h'
  rw [hscript] at hsections
  rw [hgraph] at hsections'
  obtain ⟨stmts, state, hbody, hstmts⟩ := Compile.Build.bind_ok hsections
  obtain ⟨sections, state', hnodes, hflat⟩ := Compile.Build.bind_ok hsections'
  have hstart : Compile.Outside schemas special {} {} :=
    ⟨⟨rfl, .inl rfl, .nil, fun _ _ => rfl, rfl, fun _ => rfl⟩, rfl, rfl⟩
  obtain ⟨hagree, -⟩ := Compile.alike_sections program.nodes false hspares {} {} hstart stmts sections
    state state' hbody hnodes
  have hmodule : script.module.sections = [.statements stmts] :=
    (Except.ok.inj (congrArg Prod.fst hstmts)).symm
  have hmodule' : graph.module.sections = sections.flatten :=
    (Except.ok.inj (congrArg Prod.fst hflat)).symm
  unfold Target.Module.prompts Target.Module.parts
  rw [hmodule, hmodule', List.flatMap_singleton]
  exact hagree

/-- The two layouts of a program ask for the same prompts in the same order. -/
theorem prompts_of_layouts (hscript : scriptOptions.backend = .script)
    (hgraph : graphOptions.backend = .graph) (h : program.compile scriptOptions = .ok script)
    (h' : program.compile graphOptions = .ok graph) :
    List.Forall₂ (fun f g => f.parameters = g.parameters ∧ f.text = g.text ∧ f.tools = g.tools)
      script.module.prompts graph.module.prompts := by
  have hspares : ∀ n ∈ Node.walkList true program.nodes, Spares False (fun _ => True) n := by
    intro n _
    unfold Spares
    split
    · exact fun _ _ _ => trivial
    · exact False.elim
    · trivial
  exact (prompts_match hscript hgraph h h' hspares).imp fun _ _ hmatch =>
    ⟨hmatch.parameters, hmatch.text, hmatch.tools⟩

theorem prompts_of_layouts_branches :
    ∃ program script graph,
      program = Program.mk [.function "g" [] [] none none, .uses ["g"],
        .ifElse (.binary .eq (.prompt [.text "a"] none) (.number "1"))
          [.assign "x" none (.expr (.prompt [.interpolation "y"] none))] none] ∧
      program.compile { backend := .script } = .ok script ∧
      program.compile { backend := .graph } = .ok graph ∧
      script.module.prompts.map (·.tools) = [["g"], []] ∧
      List.Forall₂ (fun f g => f.parameters = g.parameters ∧ f.text = g.text ∧ f.tools = g.tools)
        script.module.prompts graph.module.prompts := by
  obtain ⟨program, hprogram⟩ : ∃ program, program = Program.mk [.function "g" [] [] none none,
      .uses ["g"], .ifElse (.binary .eq (.prompt [.text "a"] none) (.number "1"))
        [.assign "x" none (.expr (.prompt [.interpolation "y"] none))] none] := ⟨_, rfl⟩
  have htools (backend : Backend) : (program.compile { backend := backend }).map
      (fun compiled => compiled.module.prompts.map (·.tools)) = .ok [["g"], []] := by
    subst hprogram
    cases backend <;> decide +kernel
  obtain ⟨script, hscript, hfound⟩ := exists_compiled _ _ (htools .script)
  obtain ⟨graph, hgraph, -⟩ := exists_compiled _ _ (htools .graph)
  exact ⟨program, script, graph, hprogram, hscript, hgraph, hfound,
    prompts_of_layouts rfl rfl hscript hgraph⟩

/-- Some graph node of the program has a parameter of this name with a type. -/
def TypesParameter (program : Program) (name : String) : Prop :=
  ∃ node parameters body returns visibility,
    Node.graphNode node parameters body returns visibility ∈ Node.walkList true program.nodes ∧
      ∃ parameter ∈ parameters, parameter.name = name ∧ parameter.hint.isSome

/-- The two layouts want the same responses, unless a name that a graph node takes with a type is
given the response to a prompt without a type. -/
theorem schemas_of_layouts (hscript : scriptOptions.backend = .script)
    (hgraph : graphOptions.backend = .graph) (h : program.compile scriptOptions = .ok script)
    (h' : program.compile graphOptions = .ok graph)
    (htyped : ∀ name value, Node.assign name none (.expr value) ∈ Node.walkList true program.nodes →
      value.asked ≠ [] → ¬program.TypesParameter name) :
    List.Forall₂ (fun f g => f.schema = g.schema) script.module.prompts graph.module.prompts := by
  have hspares : ∀ n ∈ Node.walkList true program.nodes,
      Spares True program.TypesParameter n := by
    intro n hn
    unfold Spares
    split
    · exact fun parameter hmem hhint => ⟨_, _, _, _, _, hn, parameter, hmem, rfl, hhint⟩
    · exact fun _ hasked => htyped _ _ hn hasked
    · trivial
  exact (prompts_match hscript hgraph h h' hspares).imp fun _ _ hmatch => hmatch.schema trivial

theorem schemas_of_layouts_typed :
    ∃ program script graph,
      program = Program.mk [.graphNode "f" [⟨"x", some (.named "number")⟩]
        [.assign "x" (some (.named "number")) (.expr (.prompt [.text "a"] none))] none none] ∧
      program.TypesParameter "x" ∧
      program.compile { backend := .script } = .ok script ∧
      program.compile { backend := .graph } = .ok graph ∧
      script.module.prompts.map (·.schema.literal) = ["\x7b'type': 'number'\x7d"] ∧
      List.Forall₂ (fun f g => f.schema = g.schema) script.module.prompts graph.module.prompts := by
  obtain ⟨program, hprogram⟩ : ∃ program, program = Program.mk
      [.graphNode "f" [⟨"x", some (.named "number")⟩]
        [.assign "x" (some (.named "number")) (.expr (.prompt [.text "a"] none))] none none] :=
    ⟨_, rfl⟩
  have hschemas (backend : Backend) : (program.compile { backend := backend }).map
      (fun compiled => compiled.module.prompts.map (·.schema.literal)) =
        .ok ["\x7b'type': 'number'\x7d"] := by
    subst hprogram
    cases backend <;> decide +kernel
  obtain ⟨script, hscript, hfound⟩ := exists_compiled _ _ (hschemas .script)
  obtain ⟨graph, hgraph, -⟩ := exists_compiled _ _ (hschemas .graph)
  have htypes : program.TypesParameter "x" := by
    subst hprogram
    exact ⟨_, _, _, _, _, List.mem_cons_self, _, List.mem_cons_self, rfl, rfl⟩
  refine ⟨program, script, graph, hprogram, htypes, hscript, hgraph, hfound,
    schemas_of_layouts rfl rfl hscript hgraph fun name value hassign => ?_⟩
  subst hprogram
  simp [Node.walkList, Node.walk] at hassign

section

-- The text is read by evaluation, which goes deeper than the limit allows.
set_option maxRecDepth 2000

/-- In a script the type of a parameter of a graph node is not known to the prompts behind it. -/
theorem schema_of_node_parameter :
    ∃ program script graph,
      parse "node f(x: number)\x7bx = `a`\x7d" none = .ok program ∧
      program.compile { backend := .script } = .ok script ∧
      program.compile { backend := .graph } = .ok graph ∧
      script.module.prompts.map (·.schema.literal) = ["\x7b'type': 'string'\x7d"] ∧
      graph.module.prompts.map (·.schema.literal) = ["\x7b'type': 'number'\x7d"] := by
  obtain ⟨program, hprogram, hparse⟩ : ∃ program, program = Program.mk
      [.graphNode "f" [⟨"x", some (.named "number")⟩]
        [.assign "x" none (.expr (.prompt [.text "a"] none))] none none] ∧
      parse "node f(x: number)\x7bx = `a`\x7d" none = .ok program :=
    ⟨_, rfl, parse_eq_ok 12 rfl rfl⟩
  have hschemas (backend : Backend) : (program.compile { backend := backend }).map
      (fun compiled => compiled.module.prompts.map (·.schema.literal)) =
        .ok [if backend = .script then "\x7b'type': 'string'\x7d"
          else "\x7b'type': 'number'\x7d"] := by
    subst hprogram
    cases backend <;> decide +kernel
  obtain ⟨script, hscript, hfound⟩ := exists_compiled _ _ (hschemas .script)
  obtain ⟨graph, hgraph, hfound'⟩ := exists_compiled _ _ (hschemas .graph)
  exact ⟨program, script, graph, hparse, hscript, hgraph, hfound, hfound'⟩

end

end AgentLang.Program
