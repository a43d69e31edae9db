import AgentLang.Proofs.Compile.Outcome
import Mathlib

/-!
# The discipline of compilation

Whatever a step of compilation opens it closes, also where it fails. So a node leaves the open
scopes and the expected types as they were, puts statements only ahead of the innermost open one,
and never gives back a number or a built-in.
-/

namespace AgentLang.Compile

open Target (Builtin Code Purpose Stmt)

/-- What waits ahead of the innermost statement has at most become more. What waits ahead of the
others is as it was. -/
inductive Hoists : List (List Stmt) → List (List Stmt) → Prop where
  | closed : Hoists [] []
  | opened (waiting more : List Stmt) (rest : List (List Stmt)) :
      Hoists (waiting :: rest) ((waiting ++ more) :: rest)

namespace Hoists

variable {first second third : List (List Stmt)}

theorem refl (frames : List (List Stmt)) : Hoists frames frames := by
  cases frames with
  | nil => exact closed
  | cons waiting rest =>
    have h := opened waiting [] rest
    rwa [List.append_nil] at h

theorem trans (h : Hoists first second) (h' : Hoists second third) : Hoists first third := by
  cases h with
  | closed => exact h'
  | opened waiting more rest =>
    cases h' with
    | opened _ others _ =>
      rw [List.append_assoc]
      exact opened waiting (more ++ others) rest

theorem of_pushed (h : Hoists ([] :: first) second) : ∃ waiting, second = waiting :: first := by
  cases h with
  | opened _ more _ => exact ⟨more, rfl⟩

end Hoists

namespace State

/-- What a node leaves as it was and what it may only add to. -/
structure Keeps (before after : State) : Prop where
  outermost : after.context.outermost = before.context.outermost
  /-- The open scopes, each with the type that it returns. -/
  frames : after.context.frames = before.context.frames
  expectations : after.context.expectations = before.context.expectations
  hoisted : Hoists before.context.hoisted after.context.hoisted
  counter : before.context.counter ≤ after.context.counter
  used : before.used <+: after.used

def SameTools (before after : State) : Prop :=
  after.context.pendingTools = before.context.pendingTools

/-- Only hints may have changed. -/
def SameButHints (before after : State) : Prop :=
  after.context = before.context ∧ after.used = before.used

variable {first second third : State}

instance : Std.Refl Keeps where
  refl _ := ⟨rfl, rfl, rfl, .refl _, Nat.le_refl _, List.prefix_refl _⟩

instance : IsTrans State Keeps where
  trans _ _ _ h h' := ⟨h'.outermost.trans h.outermost, h'.frames.trans h.frames,
    h'.expectations.trans h.expectations, h.hoisted.trans h'.hoisted, h.counter.trans h'.counter,
    h.used.trans h'.used⟩

instance : Std.Refl SameTools where
  refl _ := rfl

instance : IsTrans State SameTools where
  trans _ _ _ h h' := h'.trans h

instance : Std.Refl SameButHints where
  refl _ := ⟨rfl, rfl⟩

instance : IsTrans State SameButHints where
  trans _ _ _ h h' := ⟨h'.1.trans h.1, h'.2.trans h.2⟩

theorem SameButHints.keeps (h : SameButHints first second) : first.Keeps second := by
  obtain ⟨hcontext, hused⟩ := h
  refine ⟨?_, ?_, ?_, ?_, ?_, ?_⟩
  · rw [hcontext]
  · rw [hcontext]
  · rw [hcontext]
  · rw [hcontext]
    exact .refl _
  · rw [hcontext]
  · rw [hused]

theorem Keeps.scope (h : first.Keeps second) : second.context.scope = first.context.scope := by
  unfold Context.scope
  rw [h.frames, h.outermost]

theorem SameButHints.sameTools (h : SameButHints first second) : SameTools first second :=
  congrArg Context.pendingTools h.1

end State

namespace Build

open State (Keeps SameTools SameButHints)

variable {α β : Type} {R : State → State → Prop} {step : Build α}

/-- A step relates every state to the one behind it, whether it fails or not. -/
def Moves (R : State → State → Prop) (step : Build α) : Prop :=
  ∀ s, R s (step s).2

theorem Moves.mono (h : Moves R step) (hR : ∀ {first second}, R first second → R' first second) :
    Moves R' step :=
  fun s => hR (h s)

theorem Moves.of_eq (h : Moves R step) (heq : step s = (result, s')) : R s s' := by
  have hstep := h s
  rwa [heq] at hstep

section

theorem Moves.bind [IsTrans State R] (h : Moves R step) (hnext : ∀ value, Moves R (next value)) :
    Moves R (step >>= next) := by
  intro s
  have hstep := h s
  change R s ((ExceptT.bindCont next (step s).1) (step s).2).2
  rcases heq : step s with ⟨⟨e⟩ | ⟨value⟩, after⟩
  · rw [heq] at hstep
    exact hstep
  · rw [heq] at hstep
    exact trans_of R hstep (hnext value after)

variable [Std.Refl R]

theorem moves_pure (value : α) : Moves R (pure value : Build α) :=
  fun s => refl_of R s

theorem moves_fail (e : CompileError) : Moves R (Build.fail e : Build α) :=
  fun s => refl_of R s

theorem moves_get : Moves R (get : Build State) :=
  fun s => refl_of R s

theorem moves_ofOption (e : CompileError) (value : Option α) : Moves R (ofOption e value) := by
  cases value with
  | none => exact moves_fail e
  | some value => exact moves_pure value

variable [IsTrans State R]

/-- A step whose result is only passed on. -/
theorem Moves.done {f : α → β} (h : Moves R step) :
    Moves R (step >>= fun value => pure (f value)) :=
  h.bind fun value => moves_pure (f value)

theorem Moves.map (h : Moves R step) (f : α → β) : Moves R (f <$> step) := by
  rw [map_eq_pure_bind]
  exact h.done

theorem moves_mapM {f : β → Build α} (h : ∀ input, Moves R (f input)) (inputs : List β) :
    Moves R (inputs.mapM f) := by
  induction inputs with
  | nil => exact moves_pure []
  | cons input rest ih =>
    rw [List.mapM_cons]
    exact (h input).bind fun _ => ih.done

theorem moves_forM (h : ∀ input, Moves R (f input)) (inputs : List β) :
    Moves R (inputs.forM f) := by
  induction inputs with
  | nil => exact moves_pure ()
  | cons input rest ih =>
    rw [List.forM_eq_forM, List.forM_cons]
    exact (h input).bind fun _ => ih

end

/-! ### Hints and types -/

theorem sameButHints_storeHint (name : String) (type : Ty) :
    Moves SameButHints (storeHint name type) :=
  fun _ => ⟨rfl, rfl⟩

theorem sameButHints_storeHint? (name : String) (hint : Option Ty) :
    Moves SameButHints (storeHint? name hint) := by
  cases hint with
  | none => exact moves_pure ()
  | some type => exact sameButHints_storeHint name type

theorem sameButHints_storeParameterHints (parameters : List Parameter) :
    Moves SameButHints (storeParameterHints parameters) :=
  moves_forM (fun _ => sameButHints_storeHint? _ _) parameters

theorem moves_typeCode [Std.Refl R] (type : Ty) : Moves R (typeCode type) :=
  moves_ofOption _ _

theorem moves_typeCode? [Std.Refl R] [IsTrans State R] (hint : Option Ty) :
    Moves R (typeCode? hint) := by
  cases hint with
  | none => exact moves_pure none
  | some type => exact (moves_typeCode type).map some

theorem moves_hintOf [Std.Refl R] [IsTrans State R] (name : String) : Moves R (hintOf name) :=
  moves_get.done

theorem moves_scope [Std.Refl R] [IsTrans State R] : Moves R scope :=
  moves_get.done

theorem moves_responseSchema [Std.Refl R] [IsTrans State R] : Moves R responseSchema :=
  moves_get.bind fun _ => moves_ofOption _ _

/-! ### Numbers, built-ins, tools and what waits -/

theorem keeps_nextIndex : Moves Keeps nextIndex :=
  fun _ => ⟨rfl, rfl, rfl, .refl _, Nat.le_succ _, List.prefix_refl _⟩

theorem keeps_fresh (purpose : Purpose) : Moves Keeps (fresh purpose) :=
  keeps_nextIndex.done

theorem keeps_useBuiltin (builtin : Builtin) : Moves Keeps (useBuiltin builtin) := by
  intro s
  change s.Keeps (if builtin ∈ s.used then s else { s with used := s.used ++ [builtin] })
  split
  · exact refl_of Keeps s
  · exact ⟨rfl, rfl, rfl, .refl _, Nat.le_refl _, List.prefix_append _ _⟩

theorem keeps_withTools (s : State) (tools : List String) :
    s.Keeps { s with context := s.context.withTools tools } :=
  ⟨rfl, rfl, rfl, .refl _, Nat.le_refl _, List.prefix_refl _⟩

theorem keeps_offerTool (tool : String) : Moves Keeps (offerTool tool) := by
  intro s
  change s.Keeps { s with
    context := if tool ∈ s.context.pendingTools then s.context else s.context.addTool tool }
  split
  · exact refl_of Keeps s
  · exact keeps_withTools s _

theorem keeps_takeTools : Moves Keeps takeTools :=
  fun s => keeps_withTools s []

/-- The state behind what was put ahead of the current statement. Where none is open, it is as
before. -/
theorem hoist_state (stmts : List Stmt) (s : State) :
    (hoist stmts s).2 = { s with context := (s.context.hoist? stmts).getD s.context } := by
  have hrun : hoist stmts s = (ofOption .noOpenFrame (s.context.hoist? stmts) >>=
      fun context => set { s with context := context } : Build PUnit) s := rfl
  rw [hrun]
  cases s.context.hoist? stmts <;> rfl

theorem keeps_hoist (stmts : List Stmt) : Moves Keeps (hoist stmts) := by
  intro s
  rw [hoist_state, Context.hoist?]
  cases hframes : s.context.hoisted with
  | nil => exact refl_of Keeps s
  | cons waiting rest =>
    refine ⟨rfl, rfl, rfl, ?_, Nat.le_refl _, List.prefix_refl _⟩
    rw [hframes]
    exact .opened waiting stmts rest

/-! ### What is opened is closed -/

theorem keeps_inScope (scope : Scope) (returns : Option Ty) (h : Moves Keeps step) :
    Moves Keeps (inScope scope returns step) := by
  intro s
  have hinner := h { s with context := s.context.enter ⟨scope, returns⟩ }
  exact ⟨hinner.outermost, congrArg List.tail hinner.frames, hinner.expectations, hinner.hoisted,
    hinner.counter, hinner.used⟩

theorem keeps_expecting (type : Option Ty) (h : Moves Keeps step) :
    Moves Keeps (expecting type step) := by
  intro s
  have hinner := h { s with context := s.context.expect type }
  exact ⟨hinner.outermost, hinner.frames, congrArg List.tail hinner.expectations, hinner.hoisted,
    hinner.counter, hinner.used⟩

theorem keeps_withOwnTools (h : Moves Keeps step) : Moves Keeps (withOwnTools step) := by
  intro s
  have hinner := h { s with context := s.context.withTools [] }
  exact ⟨hinner.outermost, hinner.frames, hinner.expectations, hinner.hoisted, hinner.counter,
    hinner.used⟩

theorem keeps_inDefinition (scope : Scope) (returns : Option Ty) (h : Moves Keeps step) :
    Moves Keeps (inDefinition scope returns step) :=
  keeps_inScope scope returns (keeps_withOwnTools h)

/-- Whatever happens inside a definition, the tools that wait outside go on waiting. -/
theorem sameTools_inDefinition (scope : Scope) (returns : Option Ty) (step : Build α) :
    Moves SameTools (inDefinition scope returns step) :=
  fun _ => rfl

theorem keeps_collecting (h : Moves Keeps step) : Moves Keeps (collecting step) := by
  intro s
  have hinner := h { s with context := s.context.pushHoist }
  unfold collecting
  rcases heq : step { s with context := s.context.pushHoist } with ⟨result, after⟩
  rw [heq] at hinner
  obtain ⟨waiting, hframes⟩ := hinner.hoisted.of_pushed
  have hpop : after.context.popHoist? =
      some (waiting, { after.context with hoisted := s.context.hoisted }) := by
    rw [Context.popHoist?, hframes]
  simp only [hpop]
  exact ⟨hinner.outermost, hinner.frames, hinner.expectations, .refl _, hinner.counter, hinner.used⟩

end Build

open Build
open State (Keeps SameTools SameButHints)

variable {setting : Setting}

/-! ### Expressions -/

section

variable {R : State → State → Prop} [Std.Refl R] [IsTrans State R]

theorem moves_resolveFunction (h : ∀ builtin, Moves R (useBuiltin builtin)) (name : String) :
    Moves R (resolveFunction setting name) := by
  unfold resolveFunction
  split
  · exact moves_pure _
  · split
    · exact (h _).done
    · exact moves_pure _

theorem moves_callCode (h : ∀ builtin, Moves R (useBuiltin builtin)) (name : String)
    (arguments : List Code) : Moves R (callCode setting name arguments) := by
  unfold callCode
  split
  · exact moves_pure _
  · exact (moves_resolveFunction h name).done

end

mutual

theorem keeps_expr : (e : Expr) → Moves Keeps (expr setting e)
  | .number _ | .string _ | .multiline _ | .boolean _ | .name _ => moves_pure _
  | .prompt _ config =>
    keeps_nextIndex.bind fun _ => moves_responseSchema.bind fun _ =>
      (keeps_configEntries config).bind fun _ => keeps_takeTools.bind fun _ =>
      (keeps_hoist _).done
  | .access base chain =>
    (keeps_expr base).bind fun _ => (keeps_links chain).done
  | .array items => (keeps_exprs items).done
  | .object entries => (keeps_exprEntries entries).done
  | .call function arguments =>
    (keeps_exprs arguments).bind fun _ => moves_callCode keeps_useBuiltin function _
  | .binary _ left right =>
    (keeps_expr left).bind fun _ => (keeps_expr right).done

theorem keeps_exprs : (es : List Expr) → Moves Keeps (exprs setting es)
  | [] => moves_pure _
  | e :: rest => (keeps_expr e).bind fun _ => (keeps_exprs rest).done

theorem keeps_exprEntries : (entries : List (String × Expr)) →
    Moves Keeps (exprEntries setting entries)
  | [] => moves_pure _
  | (_, e) :: rest =>
    (keeps_expr e).bind fun _ => (keeps_exprEntries rest).done

theorem keeps_configEntries : (config : Option (List (String × Expr))) →
    Moves Keeps (configEntries setting config)
  | none => moves_pure _
  | some entries => (keeps_exprEntries entries).done

theorem keeps_links : (chain : List Step) → Moves Keeps (links setting chain)
  | [] => moves_pure _
  | .property _ :: rest => (keeps_links rest).done
  | .index e :: rest => (keeps_expr e).bind fun _ => (keeps_links rest).done
  | .method _ arguments :: rest =>
    (keeps_exprs arguments).bind fun _ => (keeps_links rest).done

end

/-! ### Parts of statements -/

section

variable {R : State → State → Prop} [Std.Refl R] [IsTrans State R]

theorem moves_annotationsAllowed : Moves R (annotationsAllowed setting) :=
  moves_scope.done

theorem moves_allowedTypeCode (hint : Option Ty) : Moves R (allowedTypeCode setting hint) := by
  cases hint with
  | none => exact moves_pure _
  | some type =>
    refine moves_annotationsAllowed.bind fun allowed => ?_
    split
    · exact (moves_typeCode type).map some
    · exact moves_pure _

theorem moves_parameterCode (parameter : Parameter) : Moves R (parameterCode parameter) :=
  (moves_typeCode? parameter.hint).done

theorem moves_parameterList (parameters : List Parameter) : Moves R (parameterList parameters) :=
  moves_mapM (fun parameter => (moves_typeCode? parameter.hint).done) parameters

theorem moves_gotoStmt (target : String) (arguments : List Code) :
    Moves R (gotoStmt setting target arguments) := by
  refine moves_scope.bind fun scope => ?_
  split <;> exact moves_pure _

theorem moves_retStmt (value : Option Code) : Moves R (retStmt setting value) := by
  refine moves_scope.bind fun scope => ?_
  split <;> exact moves_pure _

omit [IsTrans State R] in
theorem moves_importStmt (kind : ImportKind) (names : List String) (path : String) :
    Moves R (importStmt kind names path) := by
  unfold importStmt
  split
  · exact moves_pure _
  · exact moves_fail _
  · exact moves_pure _

end

theorem keeps_useTools (tools : List String) : Moves Keeps (useTools setting tools) := by
  refine moves_forM (fun tool => ?_) tools
  split
  · exact keeps_offerTool tool
  · exact moves_fail _

theorem keeps_returned (value : Option Expr) : Moves Keeps (returned setting value) := by
  cases value with
  | none => exact moves_pure _
  | some e => exact moves_get.bind fun _ => (keeps_expecting _ (keeps_expr e)).map some

theorem keeps_specialStmt (name : String) (value : Expr) :
    Moves Keeps (specialStmt setting name value) := by
  unfold specialStmt
  split
  · exact (keeps_expr value).done
  · split
    · exact (keeps_expr value).done
    · exact moves_fail _

/-! ### Statements -/

section

variable {R : State → State → Prop} [Std.Refl R] [IsTrans State R] {inner : List Node}

theorem moves_function (hhints : Moves R (storeParameterHints parameters))
    (hinner : Moves R (inDefinition .function returns (body setting false inner))) :
    Moves R (node setting (.function name parameters inner returns doc)) :=
  (moves_parameterList parameters).bind fun _ => (moves_typeCode? returns).bind fun _ =>
    hhints.bind fun _ => hinner.done

theorem moves_graphNode (hhints : Moves R (storeParameterHints parameters))
    (hinner : Moves R (inDefinition .node returns (body setting false inner))) :
    Moves R (node setting (.graphNode name parameters inner returns visibility)) := by
  rw [node]
  split
  · exact (moves_parameterList parameters).bind fun _ => (moves_typeCode? returns).bind fun _ =>
      hinner.done
  · exact hhints.bind fun _ => hinner.done

end

mutual

theorem keeps_node (n : Node) : Moves Keeps (node setting n) := by
  cases n with
  | expr value => exact (keeps_expr value).done
  | parameter parameter => exact (moves_parameterCode parameter).done
  | function name parameters inner returns doc =>
    exact moves_function ((sameButHints_storeParameterHints parameters).mono SameButHints.keeps)
      (keeps_inDefinition _ returns (keeps_body false inner))
  | graphNode name parameters inner returns visibility =>
    exact moves_graphNode ((sameButHints_storeParameterHints parameters).mono SameButHints.keeps)
      (keeps_inDefinition _ returns (keeps_body false inner))
  | goto target arguments =>
    exact (keeps_exprs arguments).bind fun _ => (moves_gotoStmt target _).done
  | uses tools => exact (keeps_useTools tools).done
  | assign name hint value =>
    have hhint := (sameButHints_storeHint? name hint).mono SameButHints.keeps
    cases value with
    | thread kind inner =>
      exact (keeps_fresh _).bind fun _ => (keeps_body false inner).done
    | timed inner prints =>
      exact keeps_nextIndex.bind fun _ => (keeps_body false inner).done
    | expr value =>
      exact hhint.bind fun _ => (moves_hintOf name).bind fun _ =>
        (keeps_expecting _ (keeps_expr value)).bind fun _ =>
        (moves_allowedTypeCode hint).done
    | parameter parameter =>
      exact hhint.bind fun _ => (moves_parameterCode parameter).bind fun _ =>
        (moves_allowedTypeCode hint).done
    | _ =>
      exact hhint.bind fun _ => (moves_hintOf name).bind fun _ =>
        (keeps_expecting _ (keeps_node _)).bind fun _ => moves_fail _
  | ret value =>
    exact (keeps_returned value).bind fun _ => (moves_retStmt _).done
  | hint name type =>
    refine ((sameButHints_storeHint name type).mono SameButHints.keeps).bind fun _ => ?_
    refine moves_annotationsAllowed.bind fun allowed => ?_
    split
    · exact (moves_typeCode type).done
    · exact moves_pure _
  | ifElse condition thenBody elseBody =>
    exact (keeps_expr condition).bind fun _ => (keeps_body false thenBody).bind fun _ =>
      (keeps_elseBranches elseBody).done
  | loop condition inner =>
    exact (keeps_expr condition).bind fun _ => (keeps_body false inner).done
  | select subject arms =>
    exact (keeps_fresh _).bind fun _ => (keeps_expr subject).bind fun _ =>
      (keeps_choices arms).done
  | thread kind inner =>
    exact (keeps_fresh _).bind fun _ => (keeps_body false inner).done
  | special name value => exact (keeps_specialStmt name value).done
  | timed inner prints =>
    exact keeps_nextIndex.bind fun _ => (keeps_body false inner).done
  | importNames kind names path =>
    exact (moves_importStmt kind names path).done
  | importNodes | importTools | comment | blockComment | newline => exact moves_pure _
termination_by structural n

theorem keeps_body (afterLineEnd : Bool) (inner : List Node) :
    Moves Keeps (body setting afterLineEnd inner) := by
  cases inner with
  | nil => exact moves_pure _
  | cons first rest =>
    have hfirst := keeps_collecting (keeps_node first)
    have hrest (b : Bool) := keeps_body b rest
    by_cases hline : first = .newline
    · rw [hline, body_newline]
      exact (hrest true).done
    · rw [body_cons hline]
      exact hfirst.bind fun _ => (hrest false).done
termination_by structural inner

theorem keeps_elseBranches (other : Option (List Node)) :
    Moves Keeps (elseBranches setting other) := by
  cases other with
  | none => exact moves_pure _
  | some nodes =>
    -- Unless a single branching continues the chain, the nodes are a body.
    have hbody := keeps_body false nodes
    cases nodes with
    | nil => exact hbody.done
    | cons n rest =>
      cases rest with
      | cons second others => cases n <;> exact hbody.done
      | nil =>
        cases n with
        | ifElse condition thenBody elseBody =>
          exact (keeps_expr condition).bind fun _ => (keeps_body false thenBody).bind fun _ =>
            (keeps_elseBranches elseBody).done
        | _ => exact hbody.done
termination_by structural other

theorem keeps_choices (arms : List Arm) : Moves Keeps (choices setting arms) := by
  match arms with
  | [] => exact moves_pure _
  | .comment text :: rest => exact (keeps_choices rest).done
  | .arm none inner :: rest =>
    exact (keeps_collecting (keeps_node inner)).done
  | .arm (some value) inner :: rest =>
    exact (keeps_expr value).bind fun _ => (keeps_collecting (keeps_node inner)).bind fun _ =>
      (keeps_choices rest).done
termination_by structural arms

end

/-! ### Definitions and the top level -/

theorem sameTools_function (name : String) (parameters : List Parameter) (inner : List Node)
    (returns : Option Ty) (doc : Option String) :
    Moves SameTools (node setting (.function name parameters inner returns doc)) :=
  moves_function ((sameButHints_storeParameterHints parameters).mono SameButHints.sameTools)
    (sameTools_inDefinition _ returns _)

theorem sameTools_graphNode (name : String) (parameters : List Parameter) (inner : List Node)
    (returns : Option Ty) (visibility : Option Visibility) :
    Moves SameTools (node setting (.graphNode name parameters inner returns visibility)) :=
  moves_graphNode ((sameButHints_storeParameterHints parameters).mono SameButHints.sameTools)
    (sameTools_inDefinition _ returns _)

theorem keeps_statement (n : Node) : Moves Keeps (statement setting n) :=
  (keeps_collecting (keeps_node n)).done

theorem keeps_stepBody (n : Node) : Moves Keeps (stepBody setting n) := by
  unfold stepBody
  split
  next value _ =>
    exact (keeps_fresh _).bind fun _ =>
      (keeps_collecting (keeps_expr value)).done
  next => exact (keeps_statement n).done

theorem keeps_stepSection (n : Node) : Moves Keeps (stepSection setting n) :=
  (keeps_fresh _).bind fun _ => (keeps_inScope _ _ (keeps_stepBody n)).done

theorem keeps_nodeSections (n : Node) : Moves Keeps (nodeSections setting n) := by
  unfold nodeSections
  split
  · exact moves_pure _
  · exact (keeps_statement _).bind fun _ => (keeps_fresh _).done
  · exact (keeps_statement _).done
  · split
    · exact (keeps_statement n).done
    · exact (keeps_stepSection n).done

/-- Every expression, every node and every node of the top level keeps the discipline in every
state and for every backend, whether it is compiled or refused. A definition also leaves the tools
that wait as they were. -/
theorem visit_keeps (setting : Setting) (s : State) :
    (∀ e, s.Keeps (expr setting e s).2) ∧
    (∀ n, s.Keeps (node setting n s).2 ∧ s.Keeps (nodeSections setting n s).2) ∧
    (∀ name parameters inner returns doc,
      s.SameTools (node setting (.function name parameters inner returns doc) s).2) ∧
    ∀ name parameters inner returns visibility,
      s.SameTools (node setting (.graphNode name parameters inner returns visibility) s).2 := by
  refine ⟨fun e => keeps_expr e s, fun n => ⟨keeps_node n s, keeps_nodeSections n s⟩, ?_, ?_⟩
  · intro name parameters inner returns doc
    exact sameTools_function name parameters inner returns doc s
  · intro name parameters inner returns visibility
    exact sameTools_graphNode name parameters inner returns visibility s

end AgentLang.Compile
