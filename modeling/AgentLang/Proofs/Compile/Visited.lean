import AgentLang.Proofs.Compile.Account
import AgentLang.Proofs.Syntax.Walk

/-!
# Compiled nodes are walked

The names that a program declares are collected from a walk through it, and code is emitted for its
nodes by another recursion. Every node that code is emitted for is met on the walk, in the same
order. So the names of all emitted definitions are known before the first call is compiled.
-/

namespace AgentLang.Compile

open List
open Target (Code Stmt)

namespace Recorded

variable {α β : Type} {x : Recorded α} {nodes others : List Node}

/-- Whether the step ends or fails, the nodes of its record are among these, in their order. -/
def Within (x : Recorded α) (nodes : List Node) : Prop :=
  ∀ s, ((x.log s).filterMap Event.node?).Sublist nodes

theorem Within.mono (h : Within x nodes) (hnodes : nodes.Sublist others) : Within x others :=
  fun s => (h s).trans hnodes

theorem within_silent (step : Build α) : Within (silent step) [] := fun _ => .slnil

theorem within_pure (a : α) : Within (pure a) [] := fun _ => .slnil

theorem within_asking (step : Build α) : Within (asking step) [] := by
  intro s
  change (((s.newPrompts (step s).2).map Event.prompt).filterMap Event.node?).Sublist []
  rw [Event.filterMap_node?_prompts]

theorem Within.bind (h : Within x nodes) (hf : ∀ a, Within (f a) others) :
    Within (x >>= f) (nodes ++ others) := by
  intro s
  change ((x.log s ++ _).filterMap Event.node?).Sublist _
  rw [filterMap_append]
  refine (h s).append ?_
  split
  · exact hf _ _
  · exact nil_sublist _

theorem Within.then_pure (h : Within x nodes) (hf : ∀ a, Within (f a) []) :
    Within (x >>= f) nodes := by
  have hseq := h.bind hf
  rwa [append_nil] at hseq

theorem within_after_silent (hf : ∀ a, Within (f a) nodes) : Within (silent step >>= f) nodes :=
  (within_silent step).bind hf

theorem within_after_asking (hf : ∀ a, Within (f a) nodes) : Within (asking step >>= f) nodes :=
  (within_asking step).bind hf

theorem Within.met (n : Node) (h : Within x nodes) : Within (met n x) (n :: nodes) :=
  fun s => (h s).cons_cons n

theorem Within.collecting (h : Within x nodes) : Within (collecting x) nodes := fun _ => h _

theorem Within.inScope (scope : Scope) (returns : Option Ty) (h : Within x nodes) :
    Within (inScope scope returns x) nodes := fun _ => h _

theorem Within.expecting (type : Option Ty) (h : Within x nodes) :
    Within (expecting type x) nodes := fun _ => h _

theorem Within.inDefinition (scope : Scope) (returns : Option Ty) (h : Within x nodes) :
    Within (inDefinition scope returns x) nodes := by
  intro s
  change ((Event.enters :: x.log _ ++ [Event.leaves]).filterMap Event.node?).Sublist nodes
  rw [filterMap_append, filterMap_cons_none rfl, filterMap_cons_none rfl,
    filterMap_nil, append_nil]
  exact h _

end Recorded

open Recorded

variable {setting : Setting}

theorem within_leaf (n : Node) : Within (met n (asking step)) (n.walk true) := by
  refine ((within_asking step).met n).mono ?_
  cases n <;> exact (nil_sublist _).cons_cons _

mutual

theorem within_recordNode (n : Node) : Within (recordNode setting n) (n.walk true) := by
  cases n with
  | function name parameters inner returns doc =>
    have hinner := (within_recordBody false inner).inDefinition .function returns
    refine Within.met _ (within_after_silent fun shown => within_after_silent fun result => ?_)
    exact within_after_silent fun _ => hinner.then_pure fun _ => within_pure _
  | graphNode name parameters inner returns visibility =>
    have hinner := (within_recordBody false inner).inDefinition .node returns
    refine Within.met _ ?_
    cases setting.backend with
    | script =>
      refine within_after_silent fun shown => within_after_silent fun result => ?_
      exact hinner.then_pure fun _ => within_pure _
    | graph => exact within_after_silent fun _ => hinner.then_pure fun _ => within_pure _
  | assign name hint value =>
    have hvalue := within_recordNode value
    cases value with
    | thread _ inner | timed inner =>
      have hinner := within_recordBody false inner
      refine Within.met _ (Within.met _ (within_after_silent fun _ => ?_))
      exact hinner.then_pure fun _ => within_pure _
    | expr | parameter => exact within_leaf _
    | _ =>
      rw [recordNode_assign rfl]
      refine Within.met _ (within_after_silent fun _ => within_after_silent fun type => ?_)
      exact (hvalue.expecting type).then_pure fun _ => within_silent _
  | ifElse condition thenBody elseBody =>
    have hthen := within_recordBody false thenBody
    have helse := within_recordElseBranches elseBody
    refine Within.met _ (within_after_asking fun _ => hthen.bind fun _ => ?_)
    exact helse.then_pure fun _ => within_pure _
  | loop condition inner =>
    have hinner := within_recordBody false inner
    exact Within.met _ (within_after_asking fun _ => hinner.then_pure fun _ => within_pure _)
  | select subject arms =>
    have harms := within_recordChoices arms
    refine Within.met _ (within_after_silent fun _ => within_after_asking fun _ => ?_)
    exact harms.then_pure fun _ => within_pure _
  | thread _ inner | timed inner =>
    have hinner := within_recordBody false inner
    exact Within.met _ (within_after_silent fun _ => hinner.then_pure fun _ => within_pure _)
  | _ => exact within_leaf _
termination_by structural n

theorem within_recordBody (afterLineEnd : Bool) (inner : List Node) :
    Within (recordBody setting afterLineEnd inner) (Node.walkList true inner) := by
  cases inner with
  | nil => exact within_pure _
  | cons first rest =>
    have hfirst := (within_recordNode first).collecting
    have hrest := within_recordBody false rest
    have hlater := within_recordBody true rest
    by_cases h : first = .newline
    · subst h
      exact Within.met _ (hlater.then_pure fun _ => within_pure _)
    · rw [recordBody_cons h]
      exact hfirst.bind fun _ => hrest.then_pure fun _ => within_pure _
termination_by structural inner

theorem within_recordElseBranches (other : Option (List Node)) :
    Within (recordElseBranches setting other) (Node.walkOption true other) := by
  cases other with
  | none => exact within_pure _
  | some nodes =>
    -- Unless a single branching continues the chain, the nodes are a body.
    have hbody := within_recordBody false nodes
    have hplain : Within (do return (([] : List (Code × List Stmt)), some (← recordBody setting false nodes)))
        (Node.walkList true nodes) := hbody.then_pure fun _ => within_pure _
    cases nodes with
    | nil => exact hplain
    | cons n rest =>
      cases rest with
      | cons second others => cases n <;> exact hplain
      | nil =>
        cases n with
        | ifElse condition thenBody elseBody =>
          have hthen := within_recordBody false thenBody
          have helse := within_recordElseBranches elseBody
          rw [Node.walkOption, Node.walkList, Node.walkList, append_nil]
          refine Within.met _ (within_after_asking fun _ => hthen.bind fun _ => ?_)
          exact helse.then_pure fun _ => within_pure _
        | _ => exact hplain
termination_by structural other

theorem within_recordChoices (arms : List Arm) :
    Within (recordChoices setting arms) (Node.walkArms true arms) := by
  cases arms with
  | nil => exact within_pure _
  | cons first rest =>
    have hrest := within_recordChoices rest
    cases first with
    | comment text => exact hrest.then_pure fun _ => within_pure _
    | arm value inner =>
      have hinner := (within_recordNode inner).collecting
      cases value with
      | none =>
        -- The arms behind this one are walked, but not compiled.
        exact (hinner.then_pure fun _ => within_pure _).mono (sublist_append_left _ _)
      | some value =>
        refine within_after_asking fun _ => hinner.bind fun _ => ?_
        exact hrest.then_pure fun _ => within_pure _
termination_by structural arms

end

theorem within_recordStatement (n : Node) : Within (recordStatement setting n) (n.walk true) :=
  (within_recordNode n).collecting.then_pure fun _ => within_pure _

theorem within_recordNodeSections (n : Node) :
    Within (recordNodeSections setting n) (n.walk true) := by
  have hstatement : Within (recordStatement setting n) _ := within_recordStatement n
  have hbody : Within (recordStepBody setting n) (n.walk true) := by
    unfold recordStepBody
    cases hvalue : plainValue? n with
    | some value =>
      obtain rfl := plainValue?_eq_some hvalue
      refine Within.met _ (within_after_silent fun _ => ?_)
      exact (within_asking _).collecting.then_pure fun _ => within_pure _
    | none => exact hstatement.then_pure fun _ => within_pure _
  have hstep : Within (recordStepSection setting n) (n.walk true) :=
    within_after_silent fun _ => (hbody.inScope .step none).then_pure fun _ => within_pure _
  cases n with
  | newline => exact (within_pure _).mono (nil_sublist _)
  | function name parameters inner returns doc =>
    exact hstatement.then_pure fun _ => within_after_silent fun _ => within_pure _
  | graphNode name parameters inner returns visibility =>
    exact hstatement.then_pure fun _ => within_pure _
  | _ =>
    unfold recordNodeSections
    dsimp only
    split
    · exact hstatement.then_pure fun _ => within_pure _
    · exact hstep.then_pure fun _ => within_pure _

theorem within_recordSections (program : Program) :
    Within (recordSections setting program) (Node.walkList true program.nodes) := by
  unfold recordSections
  cases setting.backend with
  | script => exact (within_recordBody false program.nodes).then_pure fun _ => within_pure _
  | graph =>
    induction program.nodes with
    | nil => exact within_pure _
    | cons n rest ih =>
      exact (within_recordNodeSections n).bind fun _ => ih.then_pure fun _ => within_pure _

/-! ### Names of the program -/

theorem expr_call_declared (h : name ∈ setting.declared.functions ∨ name ∈ setting.declared.nodes)
    (harguments : exprs setting arguments s = (.ok codes, s')) :
    expr setting (.call name arguments) s =
      (.ok (if isInvoked setting name then .invoke name codes else .call name codes), s') := by
  have hcall : expr setting (.call name arguments) s = callCode setting name codes s' :=
    Build.bind_of_ok harguments
  rw [hcall, callCode, resolveFunction, if_pos h]
  cases isInvoked setting name <;> rfl

end AgentLang.Compile

namespace AgentLang.Program

open Compile
open Target (Code Stmt)

variable (program : Program) (options : CompileOptions)

/-- The nodes that code is emitted for are walked, and so is what makes the names of all emitted
definitions and imports known. A function or a graph node is declared under its name, and a call by
that name is a call of it wherever it stands. -/
theorem emitted_nodes_walked :
    let setting := program.setting options.backend
    let emitted := (program.journal options.backend).filterMap Event.node?
    (recordSections setting program).run = sections setting program ∧
    emitted.Sublist (Node.walkList true program.nodes) ∧
    (∀ compiled, program.compile options = .ok compiled →
      compiled.module.parts.filterMap Stmt.introduces? = emitted.filterMap Node.introduces?) ∧
    ∀ n ∈ emitted,
      (∀ name ∈ Declared.functionName? n, name ∈ setting.declared.functions) ∧
      (∀ name ∈ Declared.nodeNames n, name ∈ setting.declared.nodes) ∧
      ∀ name, name ∈ Declared.functionName? n ∨ name ∈ Declared.nodeNames n →
        ∀ arguments codes s s', exprs setting arguments s = (.ok codes, s') →
          expr setting (.call name arguments) s =
            (.ok (if isInvoked setting name then .invoke name codes else .call name codes), s') := by
  intro setting emitted
  have hwalked : emitted.Sublist (Node.walkList true program.nodes) :=
    within_recordSections program {}
  refine ⟨run_recordSections setting program, hwalked, ?_, ?_⟩
  · intro compiled h
    have hrun := sections_of_compile h
    rw [← run_recordSections] at hrun
    obtain ⟨_, _, rfl, haccount⟩ := emits_recordSections program {} _ _ hrun
    exact haccount.names.symm
  · intro n hn
    have hmem := hwalked.subset hn
    have hfunctions : ∀ name ∈ Declared.functionName? n, name ∈ setting.declared.functions :=
      fun name hname => List.mem_filterMap.mpr ⟨n, hmem, hname⟩
    have hnodes : ∀ name ∈ Declared.nodeNames n, name ∈ setting.declared.nodes :=
      fun name hname => List.mem_flatMap.mpr ⟨n, hmem, hname⟩
    refine ⟨hfunctions, hnodes, fun name hname arguments codes s s' harguments => ?_⟩
    exact expr_call_declared (hname.imp (hfunctions name) (hnodes name)) harguments

/-- A function inside of a loop goes before the built-in of its name also for a call ahead of the
loop. -/
theorem emitted_nodes_walked_shadowing :
    ∃ program : Program,
      program = ⟨[.expr (.call "sleep" []),
        .loop (.boolean true) [.function "sleep" [] [] none none]]⟩ ∧
      (Target.Builtin.ofName? "sleep").isSome ∧
      "sleep" ∈ (program.setting .script).declared.functions ∧
      expr (program.setting .script) (.call "sleep" []) {} = (.ok (.call "sleep" []), {}) := by
  obtain ⟨program, hprogram⟩ : ∃ program : Program, program = ⟨[.expr (.call "sleep" []),
      .loop (.boolean true) [.function "sleep" [] [] none none]]⟩ := ⟨_, rfl⟩
  have hemitted : "sleep" ∈ ((program.journal .script).filterMap Event.node?).filterMap
      Declared.functionName? := by
    subst hprogram
    decide +kernel
  obtain ⟨n, hn, hname⟩ := List.mem_filterMap.mp hemitted
  obtain ⟨-, -, -, hdeclared⟩ := emitted_nodes_walked program {}
  obtain ⟨hfunctions, -, hcalls⟩ := hdeclared n hn
  exact ⟨program, hprogram, by decide, hfunctions _ hname, hcalls _ (.inl hname) [] [] {} {} rfl⟩

end AgentLang.Program
