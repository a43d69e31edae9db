import AgentLang.Compile.Program
import AgentLang.Proofs.Compile.Build
import AgentLang.Proofs.Compile.Outcome
import AgentLang.Proofs.Grammar.WellFormed
import AgentLang.Proofs.Syntax.Walk
import AgentLang.Proofs.Target.Rendering

/-!
# Compilation does not fail

Expressions are compiled without fail wherever a statement is open. For statements this depends on
their form and on the types that they mention, so it holds of parsed programs, and the one reason
left to refuse such a program is a tool that it does not know.
-/

namespace AgentLang.Compile

open Build (Safe safe_pure safe_get)
open Target (Code Section Stmt)

variable {setting : Setting} {reasons : CompileError → Prop} {opened : Nat}

/-! ### Expressions -/

theorem safe_resolveFunction (name : String) :
    Safe reasons opened (resolveFunction setting name) fun _ => True := by
  unfold resolveFunction
  split
  · exact safe_pure trivial
  · split
    · exact (Build.safe_useBuiltin _).done
    · exact safe_pure trivial

theorem safe_callCode (name : String) (arguments : List Code) :
    Safe reasons opened (callCode setting name arguments) fun _ => True := by
  unfold callCode
  split
  · exact safe_pure trivial
  · exact (safe_resolveFunction name).done

mutual

theorem safe_expr : (e : Expr) → Safe reasons (opened + 1) (expr setting e) fun _ => True
  | .number _ | .string _ | .multiline _ | .boolean _ | .name _ => safe_pure trivial
  | .prompt _ config =>
    Build.safe_nextIndex.bind fun _ _ => Build.safe_responseSchema.bind fun _ _ =>
      (safe_configEntries config).bind fun _ _ => Build.safe_takeTools.bind fun _ _ =>
        (Build.safe_hoist _).done
  | .access base chain =>
    (safe_expr base).bind fun _ _ => (safe_links chain).done
  | .array items => (safe_exprs items).done
  | .object entries => (safe_exprEntries entries).done
  | .call function arguments => (safe_exprs arguments).bind fun _ _ => safe_callCode function _
  | .binary _ left right =>
    (safe_expr left).bind fun _ _ => (safe_expr right).done

theorem safe_exprs : (es : List Expr) →
    Safe reasons (opened + 1) (exprs setting es) fun _ => True
  | [] => safe_pure trivial
  | e :: rest => (safe_expr e).bind fun _ _ => (safe_exprs rest).done

theorem safe_exprEntries : (entries : List (String × Expr)) →
    Safe reasons (opened + 1) (exprEntries setting entries) fun _ => True
  | [] => safe_pure trivial
  | (_, e) :: rest =>
    (safe_expr e).bind fun _ _ => (safe_exprEntries rest).done

theorem safe_configEntries : (config : Option (List (String × Expr))) →
    Safe reasons (opened + 1) (configEntries setting config) fun _ => True
  | none => safe_pure trivial
  | some entries => (safe_exprEntries entries).done

theorem safe_links : (chain : List Step) →
    Safe reasons (opened + 1) (links setting chain) fun _ => True
  | [] => safe_pure trivial
  | .property _ :: rest => (safe_links rest).done
  | .index e :: rest =>
    (safe_expr e).bind fun _ _ => (safe_links rest).done
  | .method _ arguments :: rest =>
    (safe_exprs arguments).bind fun _ _ => (safe_links rest).done

end

/-! ### Parts of statements -/

theorem safe_annotationsAllowed : Safe reasons opened (annotationsAllowed setting) fun _ => True :=
  Build.safe_scope.done

theorem safe_allowedTypeCode {hint : Option Ty} (h : ∀ type ∈ hint, type.Coded) :
    Safe reasons opened (allowedTypeCode setting hint) fun _ => True := by
  cases hint with
  | none => exact safe_pure trivial
  | some type =>
    refine safe_annotationsAllowed.bind fun allowed _ => ?_
    split
    · exact (Build.safe_typeCode (h type rfl)).map fun _ _ => trivial
    · exact safe_pure trivial

theorem safe_parameterList {parameters : List Parameter}
    (h : ∀ parameter ∈ parameters, ∀ type ∈ parameter.hint, type.Coded) :
    Safe reasons opened (parameterList parameters) fun _ => True :=
  Build.safe_mapM (P := fun _ => True) fun parameter hmem =>
    (Build.safe_typeCode? (h parameter hmem)).done

/-- A tool that is not declared is the reason to refuse a program. -/
theorem safe_useTools {tools : List String}
    (h : ∀ tool ∈ tools, tool ∉ setting.declared.tools → reasons (.unknownTool tool)) :
    Safe reasons opened (useTools setting tools) fun _ => True := by
  refine Build.safe_forM fun tool hmem => ?_
  split
  · exact Build.safe_offerTool tool
  next hunknown => exact Build.safe_fail (h tool hmem hunknown)

theorem safe_gotoStmt (target : String) (arguments : List Code) :
    Safe reasons opened (gotoStmt setting target arguments) fun _ => True := by
  refine Build.safe_scope.bind fun scope _ => ?_
  split <;> exact safe_pure trivial

theorem safe_retStmt (value : Option Code) :
    Safe reasons opened (retStmt setting value) fun _ => True := by
  refine Build.safe_scope.bind fun scope _ => ?_
  split <;> exact safe_pure trivial

theorem safe_returned (value : Option Expr) :
    Safe reasons (opened + 1) (returned setting value) fun _ => True := by
  cases value with
  | none => exact safe_pure trivial
  | some e =>
    refine safe_get.bind fun s hs => ?_
    exact (Build.safe_expecting hs.returnType (safe_expr e)).map fun _ _ => trivial

theorem safe_specialStmt {name : String} (h : name ∈ specialNames) (value : Expr) :
    Safe reasons (opened + 1) (specialStmt setting name value) fun _ => True := by
  unfold specialStmt
  split
  · exact (safe_expr value).done
  · split
    · exact (safe_expr value).done
    next hmodel hmessages => exact absurd h (by simp [specialNames, hmodel, hmessages])

theorem safe_importStmt {kind : ImportKind} {names : List String}
    (h : kind ≠ .named → names.length = 1) (path : String) :
    Safe reasons opened (importStmt kind names path) fun _ => True := by
  unfold importStmt
  split
  · exact safe_pure trivial
  next hkind => exact absurd (h hkind) (by simp)
  · exact safe_pure trivial

/-! ### Statements -/

/-- The nodes are well-formed, their types can be emitted, and the tools that are not declared are
reasons to fail. -/
structure Covered (setting : Setting) (reasons : CompileError → Prop) (nodes : List Node) :
    Prop where
  form : ∀ n ∈ nodes, n.WellFormed
  types : ∀ n ∈ nodes, ∀ type ∈ n.types, type.Coded
  tools : ∀ tools, .uses tools ∈ nodes → ∀ tool ∈ tools, tool ∉ setting.declared.tools →
    reasons (.unknownTool tool)

namespace Covered

variable {n : Node} {nodes others : List Node}

theorem mono (h : Covered setting reasons nodes) (hsub : others ⊆ nodes) :
    Covered setting reasons others where
  form n hn := h.form n (hsub hn)
  types n hn := h.types n (hsub hn)
  tools tools huses := h.tools tools (hsub huses)

theorem tail (h : Covered setting reasons (n :: nodes)) : Covered setting reasons nodes :=
  h.mono (List.subset_cons_self n nodes)

theorem left (h : Covered setting reasons (nodes ++ others)) : Covered setting reasons nodes :=
  h.mono (List.subset_append_left nodes others)

theorem right (h : Covered setting reasons (nodes ++ others)) : Covered setting reasons others :=
  h.mono (List.subset_append_right nodes others)

end Covered

theorem coded_signature {parameters : List Parameter} {returns : Option Ty}
    (h : ∀ type ∈ parameters.filterMap Parameter.hint ++ returns.toList, type.Coded) :
    (∀ parameter ∈ parameters, ∀ type ∈ parameter.hint, type.Coded) ∧
      ∀ type ∈ returns, type.Coded := by
  rw [List.forall_mem_append] at h
  refine ⟨fun parameter hmem type htype => ?_, fun type htype => ?_⟩
  · exact h.1 type (List.mem_filterMap.mpr ⟨parameter, hmem, htype⟩)
  · exact h.2 type (Option.mem_toList.mpr htype)

mutual

theorem safe_node {opened : Nat} (n : Node) (h : Covered setting reasons (n.walk true)) :
    Safe reasons (opened + 1) (node setting n) fun _ => True := by
  have hself : n ∈ n.walk true := Node.mem_walk_self true n
  have hform := h.form n hself
  have htypes := h.types n hself
  cases n with
  | expr value => exact (safe_expr value).done
  | parameter parameter => exact nomatch hform
  | function name parameters inner returns doc =>
    obtain ⟨hparameters, hreturns⟩ := coded_signature htypes
    exact (safe_parameterList hparameters).bind fun _ _ =>
      (Build.safe_typeCode? hreturns).bind fun _ _ =>
      (Build.safe_storeParameterHints hparameters).bind fun _ _ =>
      (Build.safe_inDefinition _ hreturns (safe_body inner false h.tail)).done
  | graphNode name parameters inner returns visibility =>
    obtain ⟨hparameters, hreturns⟩ := coded_signature htypes
    rw [node]
    split
    · exact (safe_parameterList hparameters).bind fun _ _ =>
        (Build.safe_typeCode? hreturns).bind fun _ _ =>
        (Build.safe_inDefinition _ hreturns (safe_body inner false h.tail)).done
    · exact (Build.safe_storeParameterHints hparameters).bind fun _ _ =>
        (Build.safe_inDefinition _ hreturns (safe_body inner false h.tail)).done
  | goto target arguments =>
    exact (safe_exprs arguments).bind fun _ _ => (safe_gotoStmt target _).done
  | uses tools => exact (safe_useTools (h.tools tools hself)).done
  | assign name hint value =>
    have hhint : ∀ type ∈ hint, type.Coded := fun type hmem =>
      htypes type (Option.mem_toList.mpr hmem)
    have hvalue : Covered setting reasons (value.walk true) := h.tail
    have hassigned : value.tag ∈ Node.assignedKinds := by
      cases hform
      assumption
    -- The value is laid out in its own way for each kind, so its own lemma does not apply.
    cases value with
    | expr e =>
      exact (Build.safe_storeHint? name hhint).bind fun _ _ =>
        (Build.safe_hintOf name).bind fun _ hknown =>
        (Build.safe_expecting hknown (safe_expr e)).bind fun _ _ =>
        (safe_allowedTypeCode hhint).done
    | thread kind inner =>
      exact (Build.safe_fresh _).bind fun _ _ => (safe_body inner false hvalue.tail).done
    | timed inner prints =>
      exact Build.safe_nextIndex.bind fun _ _ => (safe_body inner false hvalue.tail).done
    | _ =>
      rcases Node.cases_of_assignedKinds hassigned with ⟨_, h⟩ | ⟨_, _, h⟩ | ⟨_, _, h⟩ <;> cases h
  | ret value =>
    exact (safe_returned value).bind fun _ _ => (safe_retStmt _).done
  | hint name type =>
    have htype := htypes type (List.mem_singleton_self type)
    refine (Build.safe_storeHint name htype).bind fun _ _ => ?_
    refine safe_annotationsAllowed.bind fun allowed _ => ?_
    split
    · exact (Build.safe_typeCode htype).done
    · exact safe_pure trivial
  | ifElse condition thenBody elseBody =>
    exact (safe_expr condition).bind fun _ _ => (safe_body thenBody false h.tail.left).bind
      fun _ _ => (safe_elseBranches elseBody h.tail.right).done
  | loop condition inner =>
    exact (safe_expr condition).bind fun _ _ => (safe_body inner false h.tail).done
  | select subject arms =>
    exact (Build.safe_fresh _).bind fun _ _ => (safe_expr subject).bind fun _ _ =>
      (safe_choices arms h.tail).done
  | thread kind inner =>
    exact (Build.safe_fresh _).bind fun _ _ => (safe_body inner false h.tail).done
  | special name value =>
    cases hform with
    | special known _ => exact (safe_specialStmt known value).done
  | timed inner prints =>
    exact Build.safe_nextIndex.bind fun _ _ => (safe_body inner false h.tail).done
  | importNames kind names path =>
    cases hform with
    | importNames _ single => exact (safe_importStmt single path).done
  | importNodes | importTools | comment | blockComment | newline => exact safe_pure trivial
termination_by structural n

theorem safe_body {opened : Nat} (inner : List Node) (afterLineEnd : Bool)
    (h : Covered setting reasons (Node.walkList true inner)) :
    Safe reasons opened (body setting afterLineEnd inner) fun _ => True := by
  cases inner with
  | nil => exact safe_pure trivial
  | cons first rest =>
    have hfirst : Safe reasons opened (Build.collecting (node setting first)) fun _ => True :=
      Build.safe_collecting (safe_node first h.left)
    have hrest (b : Bool) : Safe reasons opened (body setting b rest) fun _ => True :=
      safe_body rest b h.right
    by_cases hline : first = .newline
    · rw [hline, body_newline]
      exact (hrest true).done
    · rw [body_cons hline]
      exact hfirst.bind fun _ _ => (hrest false).done
termination_by structural inner

theorem safe_elseBranches {opened : Nat} (other : Option (List Node))
    (h : Covered setting reasons (Node.walkOption true other)) :
    Safe reasons (opened + 1) (elseBranches setting other) fun _ => True := by
  cases other with
  | none => exact safe_pure trivial
  | some nodes =>
    -- Unless a single branching continues the chain, the nodes are a body.
    have hbody : Safe reasons (opened + 1) (body setting false nodes) fun _ => True :=
      safe_body nodes false h
    cases nodes with
    | nil => exact hbody.done
    | cons n rest =>
      cases rest with
      | cons second others => cases n <;> exact hbody.done
      | nil =>
        cases n with
        | ifElse condition thenBody elseBody =>
          have hinside : Covered setting reasons
              (Node.walkList true thenBody ++ Node.walkOption true elseBody) := h.left.tail
          exact (safe_expr condition).bind fun _ _ => (safe_body thenBody false hinside.left).bind
            fun _ _ => (safe_elseBranches elseBody hinside.right).done
        | _ => exact hbody.done
termination_by structural other

theorem safe_choices {opened : Nat} (arms : List Arm)
    (h : Covered setting reasons (Node.walkArms true arms)) :
    Safe reasons (opened + 1) (choices setting arms) fun _ => True := by
  match arms with
  | [] => exact safe_pure trivial
  | .comment text :: rest => exact (safe_choices rest h).done
  | .arm none inner :: rest => exact (Build.safe_collecting (safe_node inner h.left)).done
  | .arm (some value) inner :: rest =>
    exact (safe_expr value).bind fun _ _ =>
      (Build.safe_collecting (safe_node inner h.left)).bind fun _ _ =>
      (safe_choices rest h.right).done
termination_by structural arms

end

/-! ### Programs -/

section

variable {n : Node}

theorem safe_statement (h : Covered setting reasons (n.walk true)) :
    Safe reasons opened (statement setting n) fun _ => True :=
  (Build.safe_collecting (safe_node n h)).done

theorem safe_stepBody (h : Covered setting reasons (n.walk true)) :
    Safe reasons opened (stepBody setting n) fun _ => True := by
  unfold stepBody
  split
  next value _ =>
    exact (Build.safe_fresh _).bind fun _ _ =>
      (Build.safe_collecting (safe_expr value)).done
  next => exact (safe_statement h).done

theorem safe_stepSection (h : Covered setting reasons (n.walk true)) :
    Safe reasons opened (stepSection setting n) fun _ => True :=
  (Build.safe_fresh _).bind fun _ _ =>
    (Build.safe_inScope _ (by simp) (safe_stepBody h)).done

theorem safe_nodeSections (h : Covered setting reasons (n.walk true)) :
    Safe reasons opened (nodeSections setting n) fun _ => True := by
  have hstatement : Safe reasons opened (statement setting n) fun _ => True := safe_statement h
  unfold nodeSections
  split
  · exact safe_pure trivial
  · exact hstatement.bind fun _ _ => (Build.safe_fresh _).done
  · exact hstatement.done
  · split
    · exact hstatement.done
    · exact (safe_stepSection h).done

end

theorem safe_sections (h : Covered setting reasons (Node.walkList true program.nodes)) :
    Safe reasons opened (sections setting program) fun _ => True := by
  unfold sections
  split
  · exact (safe_body program.nodes false h).done
  · refine .bind (P := fun _ => True) (Build.safe_mapM (P := fun _ => True) fun n hn => ?_)
      fun _ _ => safe_pure trivial
    exact safe_nodeSections (h.mono fun _ hm => Node.mem_walkList hn hm)

end AgentLang.Compile

namespace AgentLang.Program

/-- A tool of some statement of the program that selects tools. -/
def Selects (program : Program) (tool : String) : Prop :=
  ∃ tools, Node.uses tools ∈ Node.walkList true program.nodes ∧ tool ∈ tools

/-- A function of any depth, a tool of another program, or a name that a module gives. -/
def Offers (program : Program) (tool : String) : Prop :=
  (∃ parameters body returns doc,
    Node.function tool parameters body returns doc ∈ Node.walkList true program.nodes) ∨
  (∃ names path, Node.importTools names path ∈ program.nodes ∧ tool ∈ names) ∨
  ∃ names path, Node.importNames .named names path ∈ program.nodes ∧ tool ∈ names

/-- No whole number of a type has more digits than can be read. -/
def Short (program : Program) : Prop :=
  ∀ n ∈ Node.walkList true program.nodes, ∀ type ∈ n.types, type.Short

theorem mem_tools_iff : tool ∈ (Declared.ofProgram program).tools ↔ program.Offers tool := by
  have hfunctions : tool ∈ (Declared.ofProgram program).functions ↔
      ∃ parameters body returns doc,
        Node.function tool parameters body returns doc ∈ Node.walkList true program.nodes := by
    refine List.mem_filterMap.trans ⟨fun ⟨n, hn, hname⟩ => ?_, fun ⟨_, _, _, _, hn⟩ => ⟨_, hn, rfl⟩⟩
    cases n with
    | function => exact Option.some.inj hname ▸ ⟨_, _, _, _, hn⟩
    | _ => exact nomatch hname
  have himports : tool ∈ program.nodes.flatMap Declared.toolNames ↔
      (∃ names path, Node.importTools names path ∈ program.nodes ∧ tool ∈ names) ∨
      ∃ names path, Node.importNames .named names path ∈ program.nodes ∧ tool ∈ names := by
    refine List.mem_flatMap.trans ⟨fun ⟨n, hn, htool⟩ => ?_, ?_⟩
    · unfold Declared.toolNames at htool
      split at htool
      · exact .inl ⟨_, _, hn, htool⟩
      · exact .inr ⟨_, _, hn, htool⟩
      · exact nomatch htool
    · rintro (⟨_, _, hn, htool⟩ | ⟨_, _, hn, htool⟩)
      · exact ⟨_, hn, htool⟩
      · exact ⟨_, hn, htool⟩
  exact List.mem_append.trans (or_congr hfunctions himports)

/-- The program selects a tool that it does not offer. -/
def LacksTool (program : Program) (e : CompileError) : Prop :=
  ∃ tool, e = .unknownTool tool ∧ program.Selects tool ∧ ¬program.Offers tool

theorem WellFormed.covered {program : Program} (h : program.WellFormed) (hshort : program.Short)
    (backend : Backend) :
    Compile.Covered (program.setting backend) program.LacksTool
      (Node.walkList true program.nodes) where
  form := Node.wellFormed_walkList program.nodes h
  types n hn type htype :=
    ((Node.wellFormed_walkList program.nodes h n hn).types type htype).coded
      (hshort n hn type htype)
  tools _ huses tool htool hunknown :=
    ⟨tool, rfl, ⟨_, huses, htool⟩, fun hoffers => hunknown (mem_tools_iff.mpr hoffers)⟩

/-- The outcomes of a program whose nodes are all well-formed. -/
theorem WellFormed.compile_cases {program : Program} (h : program.WellFormed)
    (hshort : program.Short) (backend : Backend) (graphName : String) (model host : Json)
    (debug : Bool) :
    (∃ compiled, program.compile ⟨backend, graphName, .ok model, .ok host, debug⟩ = .ok compiled) ∨
      ∃ e, program.compile ⟨backend, graphName, .ok model, .ok host, debug⟩ = .error e ∧
        program.LacksTool e := by
  have hstart : Compile.State.Ready 0 {} :=
    ⟨fun _ h => (nomatch h), by simp, fun _ h => (nomatch h), rfl⟩
  have hfine := Compile.safe_sections (h.covered hshort backend) {} hstart
  rcases hrun : Compile.sections (program.setting backend) program {} with ⟨⟨e⟩ | ⟨sections⟩, after⟩
  · rw [hrun] at hfine
    refine .inr ⟨e, ?_, hfine⟩
    unfold compile
    simp only [ExceptT.run, hrun]
    rfl
  · refine .inl ?_
    unfold compile
    simp only [ExceptT.run, hrun]
    exact ⟨_, rfl⟩

/-- A parsed program is compiled to a module with all its texts, unless it selects a tool that it
does not offer, and nothing else is ever the reason. -/
theorem compile_parsed {source : String} {file : Option Path} {program : Program}
    (h : parse source file = .ok program) (hshort : program.Short) (backend : Backend)
    (graphName : String) (model host : Json) (debug : Bool) :
    ((∀ tool, program.Selects tool → program.Offers tool) →
      ∃ compiled, program.compile ⟨backend, graphName, .ok model, .ok host, debug⟩ = .ok compiled ∧
        compiled.module.Rendered) ∧
    ∀ e, program.compile ⟨backend, graphName, .ok model, .ok host, debug⟩ = .error e →
      ∃ tool, e = .unknownTool tool ∧ program.Selects tool ∧ ¬program.Offers tool := by
  have hform : program.WellFormed := makes_parse Grammar.makes_program h
  rcases hform.compile_cases hshort backend graphName model host debug with
    ⟨compiled, hcompiled⟩ | ⟨e, he, hlacks⟩
  · refine ⟨fun _ => ⟨compiled, hcompiled, compiled.module.rendered⟩, fun e he => ?_⟩
    exact nomatch hcompiled.symm.trans he
  · refine ⟨fun hoffers => ?_, fun e' he' => ?_⟩
    · obtain ⟨tool, -, hselects, hnot⟩ := hlacks
      exact absurd (hoffers tool hselects) hnot
    · exact Except.error.inj (he.symm.trans he') ▸ hlacks

section

-- The text is read by evaluation, which goes deeper than the limit allows.
set_option maxRecDepth 2000

theorem compile_parsed_uses :
    ∃ program compiled, parse "uses f\ndef f(a:5)\x7b\x7d" none = .ok program ∧ program.Short ∧
      program.Selects "f" ∧
      program.compile ⟨.graph, "g", .ok (.string "m"), .ok .null, true⟩ = .ok compiled ∧
      compiled.module.Rendered := by
  obtain ⟨program, h, hwalk⟩ :
      ∃ program, parse "uses f\ndef f(a:5)\x7b\x7d" none = .ok program ∧
        Node.walkList true program.nodes =
          [.uses ["f"], .newline, .function "f" [⟨"a", some (.number "5")⟩] [] none none] :=
    ⟨⟨[.uses ["f"], .newline, .function "f" [⟨"a", some (.number "5")⟩] [] none none]⟩,
      parse_eq_ok 12 rfl rfl, rfl⟩
  have hdigits : (Ty.number "5").Short := .inr (by decide)
  have hshort : program.Short := by simpa [Short, hwalk, Node.types] using hdigits
  have hselects : ∀ tool, program.Selects tool ↔ tool = "f" := by simp [Selects, hwalk]
  have hoffers : program.Offers "f" := .inl (by simp [hwalk])
  obtain ⟨compiled, hcompiled, hrendered⟩ :=
    (compile_parsed h hshort .graph "g" (.string "m") .null true).1 fun tool htool =>
      (hselects tool).mp htool ▸ hoffers
  exact ⟨program, compiled, h, hshort, (hselects "f").mpr rfl, hcompiled, hrendered⟩

end

end AgentLang.Program
