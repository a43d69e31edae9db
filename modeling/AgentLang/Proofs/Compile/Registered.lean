import AgentLang.Proofs.Compile.Calls
import AgentLang.Proofs.Compile.Leads

/-!
# Nodes that a graph knows

Calls that go through the graph are decided by the names that a program declares at any depth. The
graph learns of its nodes from the code that is emitted: a function of the top level has a node made
of it, a node is registered where it is defined, and the nodes of another module are merged in. Both
sides name the same nodes as long as no arm stands behind the one that takes all other values.
-/

namespace AgentLang.Target

/-- The nodes that the graph learns of by a statement, apart from those inside it. -/
def Stmt.registers : Stmt → List String
  | .defineNode name _ => [name]
  | .importGraph _ names => names
  | _ => []

/-- The nodes that the graph learns of by statements of any depth. -/
def Stmt.registered (stmts : List Stmt) : List String :=
  (Stmt.listParts stmts).flatMap Stmt.registers

namespace Stmt

@[simp] theorem registered_append (stmts others : List Stmt) :
    registered (stmts ++ others) = registered stmts ++ registered others := by
  rw [registered, listParts_append, List.flatMap_append]
  rfl

theorem registered_singleton (stmt : Stmt) : registered [stmt] = stmt.parts.flatMap registers := by
  rw [registered, listParts_singleton]

@[simp] theorem registered_prompts (functions : List PromptFunction) :
    registered (functions.map .prompt) = [] := by
  rw [registered, listParts_prompts, List.flatMap_eq_nil_iff]
  intro stmt hstmt
  obtain ⟨f, -, rfl⟩ := List.mem_map.mp hstmt
  rfl

theorem registered_notes (lines : List String) : registered (lines.map .note) = [] := by
  induction lines with
  | nil => rfl
  | cons line rest ih => exact ih

theorem registered_if {p : Prop} [Decidable p] (h : registered [stmt] = []) :
    registered (if p then [] else [stmt]) = [] := by
  split
  · rfl
  · exact h

end Stmt

namespace Section

/-- The nodes that the graph learns of by the statements of a section. -/
def registered (part : Section) : List String := part.parts.flatMap Stmt.registers

@[simp] theorem registered_statements (body : List Stmt) :
    registered (.statements body) = Stmt.registered body := rfl

@[simp] theorem registered_functionNode (name : String) (arity : Nat) (holder : Temp) :
    registered (.functionNode name arity holder) = [] := rfl

@[simp] theorem registered_entryPoint (node : String) : registered (.entryPoint node) = [] := rfl

@[simp] theorem registered_step (temp : Temp) (assigned : Names) (body : List Stmt) :
    registered (.step temp assigned body) = Stmt.registered body := rfl

end Section

namespace Module

/-- The text of a module makes a node known to its graph: the node is registered by itself, or among
those that are merged in from another module. -/
inductive Registers (module : Module) (name : String) : Prop where
  | wrapped {part : Section} {rest : List String} (hpart : part ∈ module.sections)
      (htext : part.toText =
        Text.joinLines (("@graph.node(" ++ Text.quoteAscii name ++ ")") :: rest))
  | defined {stmt : Stmt} {rest : List String} (hstmt : stmt ∈ module.parts)
      (hlines : stmt.lines = ("@graph.node(" ++ Text.quoteAscii name ++ ")") :: rest)
  | merged {stmt : Stmt} {path : String} {names : List String} (hstmt : stmt ∈ module.parts)
      (hname : name ∈ names)
      (hlines : stmt.lines = ["from " ++ path ++ " import graph as " ++ graphAlias path,
        "graph.merge(" ++ graphAlias path ++ ", [" ++
          commaSeparated (names.map Text.quoteAscii) ++ "])"])

theorem Registers.of_wrapped {module : Module} {name : String} (h : name ∈ module.wrapped) :
    module.Registers name := by
  obtain ⟨part, hpart, hname⟩ := List.mem_filterMap.mp h
  cases part with
  | functionNode function arity holder =>
    cases hname
    exact .wrapped hpart (by rw [Section.toText])
  | _ => exact nomatch hname

theorem Registers.of_registers {module : Module} {name : String} {stmt : Stmt}
    (hstmt : stmt ∈ module.parts) (hname : name ∈ stmt.registers) : module.Registers name := by
  cases stmt with
  | defineNode node body =>
    cases List.mem_singleton.mp hname
    apply Registers.defined hstmt
    rw [Stmt.lines]
    rfl
  | importGraph path names =>
    exact .merged hstmt hname (by rw [Stmt.lines, Stmt.registers])
  | _ => exact nomatch hname

end Module
end AgentLang.Target

namespace AgentLang.Compile

open List
open Target (Call Choice Code PromptFunction Section Stmt)

variable {setting : Setting}

/-! ### What is declared is registered -/

mutual

/-- In the code of a node, the graph learns of the nodes that are declared where it is reached. -/
theorem NodeBecomes.registers (hgraph : setting.backend = .graph)
    (h : NodeBecomes setting n first functions stmts n') :
    Stmt.registered stmts = first.reached.flatMap Declared.nodeNames := by
  match h with
  | .function _ _ _ hinner | .assignThread _ _ _ hinner | .assignTimed _ _ _ hinner
  | .loop _ hinner | .thread _ hinner | .timed _ hinner =>
    rw [Stmt.registered_singleton]
    exact hinner.registers hgraph
  | .plainNode _ _ _ hbackend hinner => exact nomatch hbackend.symm.trans hgraph
  | .graphNode _ hinner =>
    rw [Stmt.registered_singleton, Stmt.parts, flatMap_cons]
    refine congrArg _ ?_
    rw [← Stmt.registered, Stmt.registered_append, Stmt.registered_append,
      Stmt.registered_if rfl, Stmt.registered_if rfl, nil_append, append_nil]
    exact hinner.registers hgraph
  | .ifElse _ hthen helse =>
    rw [Stmt.registered_singleton, Node.reached, Stmt.parts, cons_append, cons_append,
      flatMap_cons, flatMap_cons, Stmt.branchParts, append_assoc,
      flatMap_append, helse.registers hgraph, ← Stmt.registered, hthen.registers hgraph,
      flatMap_append]
    rfl
  | .select _ harms =>
    rw [Stmt.registered_singleton]
    exact harms.registers hgraph
  | .importNodes names path =>
    rw [importNodesStmt, hgraph]
    rfl
  | .goto _ hstmt =>
    obtain ⟨-, rfl | rfl⟩ | ⟨-, rfl | ⟨_, rfl⟩⟩ := gotoStmt_ok hstmt <;> rfl
  | .retNothing hstmt | .ret _ hstmt => obtain rfl | rfl | rfl := retStmt_ok hstmt <;> rfl
  | .importNames hstmt => obtain rfl | ⟨_, rfl⟩ := importStmt_ok hstmt <;> rfl
  | .hint _ _ typeCode => cases typeCode <;> rfl
  | .blockComment _ => exact Stmt.registered_notes _
  | .expr _ | .parameter _ _ | .uses _ | .assign _ _ _ _ | .assignParameter _ _ _ _ _
  | .setModel _ | .setMessages _ | .importTools _ _ | .comment _ | .newline => rfl

theorem BodyBecomes.registers (hgraph : setting.backend = .graph)
    (h : BodyBecomes setting n nodes stmts n') :
    Stmt.registered stmts = (Node.listReached nodes).flatMap Declared.nodeNames := by
  match h with
  | .nil => rfl
  | .newline afterLineEnd hrest =>
    have hstmts := hrest.registers hgraph
    cases afterLineEnd with
    | false | true => exact hstmts
  | .cons hfirst hrest =>
    rw [Stmt.registered_append, Stmt.registered_append, Stmt.registered_prompts, nil_append,
      hfirst.registers hgraph, hrest.registers hgraph, Node.listReached, flatMap_append]

theorem ElseBecomes.registers (hgraph : setting.backend = .graph)
    (h : ElseBecomes setting n other functions branches otherwise n') :
    (Stmt.branchParts branches ++ Stmt.otherwiseParts otherwise).flatMap Stmt.registers =
      (Node.otherwiseReached other).flatMap Declared.nodeNames := by
  match h with
  | .none => rfl
  | .chain _ hthen helse =>
    rw [Stmt.branchParts, append_assoc, flatMap_append, helse.registers hgraph,
      Node.otherwiseReached, Node.listReached, Node.listReached, append_nil, Node.reached,
      cons_append, flatMap_cons, flatMap_append, ← Stmt.registered,
      hthen.registers hgraph]
    rfl
  | .last _ hnodes => exact hnodes.registers hgraph

theorem ArmsBecome.registers {choices : List Choice} (hgraph : setting.backend = .graph)
    (h : ArmsBecome setting n arms functions choices otherwise n') :
    (Stmt.choiceParts choices ++ Stmt.otherwiseParts otherwise).flatMap Stmt.registers =
      (Node.armsReached arms).flatMap Declared.nodeNames := by
  match h with
  | .nil => rfl
  | .comment _ hrest =>
    have harms := hrest.registers hgraph
    exact harms
  | .left _ hinner =>
    change Stmt.registered _ = _
    rw [Stmt.registered_append, Stmt.registered_prompts, nil_append,
      hinner.registers hgraph]
    rfl
  | .arm _ hinner hrest =>
    rw [Stmt.choiceParts, append_assoc, flatMap_append, ← Stmt.registered,
      Stmt.registered_append, Stmt.registered_prompts, nil_append, hinner.registers hgraph,
      hrest.registers hgraph, Node.armsReached, flatMap_append]

end

theorem PartBecomes.registers (hgraph : setting.backend = .graph)
    (h : PartBecomes setting n first group n') :
    group.flatMap Section.registered = first.reached.flatMap Declared.nodeNames := by
  cases h with
  | newline => rfl
  | function h =>
    rw [← h.registers hgraph]
    simp
  | graphNode h =>
    rw [← h.registers hgraph]
    split <;> simp
  | outside _ h =>
    rw [← h.registers hgraph]
    simp
  | value _ _ h =>
    simp only [flatMap_cons, flatMap_nil, Section.registered_step,
      Stmt.registered_append, Stmt.registered_prompts, nil_append, append_nil]
    rfl
  | step _ _ h =>
    have hstate : Stmt.registered [.retState] = [] := rfl
    rw [← h.registers hgraph]
    simp [Stmt.registered_if hstate]

theorem PartsBecome.registers {sections : List Section} (hgraph : setting.backend = .graph)
    (h : PartsBecome setting n nodes sections n') :
    sections.flatMap Section.registered =
      (Node.listReached nodes).flatMap Declared.nodeNames := by
  induction h with
  | nil => rfl
  | cons hfirst _ ih =>
    rw [flatMap_append, hfirst.registers hgraph, ih, Node.listReached, flatMap_append]

end AgentLang.Compile

namespace AgentLang.Program

open Compile
open Target (Call PromptFunction Section Stmt)

variable {program : Program} {module : Target.Module} {backend : Backend} {n : Nat}

/-- A call that goes through the graph is one of the source, and the name is one that the program
declares. -/
theorem declared_of_invoke
    (h : SectionsBecome (program.setting backend) program.nodes module.sections n)
    (hcall : .invoke name ∈ module.calls) :
    name ∈ program.functions ∨ name ∈ (Declared.ofProgram program).nodes := by
  obtain ⟨called, -, hroute⟩ | ⟨f, -, hf⟩ | ⟨function, -, hfunction⟩ := (mem_calls_iff h).mp hcall
  · obtain ⟨-, hinvoked⟩ := Setting.invoke_mem_route_iff.mp hroute
    simp only [isInvoked, Bool.and_eq_true, Bool.or_eq_true, decide_eq_true_eq] at hinvoked
    exact hinvoked.2
  · exact nomatch hf
  · exact nomatch hfunction

/-- Where all is reached, the statements of a module with a graph register all nodes that the
program declares, in their order. -/
theorem registered_eq (h : SectionsBecome (program.setting .graph) program.nodes module.sections n)
    (hclosed : Node.AllClosed (Node.walkList true program.nodes)) :
    module.parts.flatMap Stmt.registers = (Declared.ofProgram program).nodes := by
  unfold Target.Module.parts
  generalize module.sections = sections at h
  cases h with
  | script hbackend _ => exact nomatch hbackend
  | graph _ h =>
    rw [List.flatMap_assoc]
    calc sections.flatMap Section.registered
        = (Node.listReached program.nodes).flatMap Declared.nodeNames := h.registers rfl
      _ = (Node.walkList true program.nodes).flatMap Declared.nodeNames := by
          rw [Node.listReached_eq_walk program.nodes hclosed]
      _ = (Declared.ofProgram program).nodes := rfl

theorem registers_of_declared
    (h : SectionsBecome (program.setting .graph) program.nodes module.sections n)
    (hclosed : Node.AllClosed (Node.walkList true program.nodes)) {name : String}
    (hname : name ∈ program.functions ∨ name ∈ (Declared.ofProgram program).nodes) :
    module.Registers name := by
  obtain hfunction | hnode := hname
  · apply Target.Module.Registers.of_wrapped
    rw [wrapped_eq h]
    exact hfunction
  · rw [← registered_eq h hclosed] at hnode
    obtain ⟨stmt, hstmt, hmem⟩ := List.mem_flatMap.mp hnode
    exact .of_registers hstmt hmem

/-- Every call through the graph has a target: the same module makes the node known to the graph, as
long as no arm stands behind the one that takes all other values. A name that is neither that of a
function of the top level nor that of a node, such as that of a function inside another body, is
never called through the graph. -/
theorem invoked_registered {options : CompileOptions} {compiled : Compiled}
    (h : program.compile options = .ok compiled) (hgraph : options.backend = .graph)
    (hclosed : Node.AllClosed (Node.walkList true program.nodes)) :
    (∀ name, .invoke name ∈ compiled.module.calls → compiled.module.Registers name) ∧
    ∀ name, name ∉ program.functions → name ∉ (Declared.ofProgram program).nodes →
      .invoke name ∉ compiled.module.calls := by
  obtain ⟨hbecomes, -⟩ := becomes_of_compile h
  rw [hgraph] at hbecomes
  constructor
  · intro name hcall
    exact registers_of_declared hbecomes hclosed (declared_of_invoke hbecomes hcall)
  · intro name hfunction hnode hcall
    obtain hdeclared | hdeclared := declared_of_invoke hbecomes hcall
    · exact hfunction hdeclared
    · exact hnode hdeclared

/-- A function calls a node ahead of its definition, and the node calls one of another module and a
function of its own. -/
theorem invoked_registered_ahead :
    ∃ program compiled, program = Program.mk [
        .function "f" [] [.ret (some (.call "a" []))] none none,
        .graphNode "a" [] [.importNodes ["b"] "./b.adl", .function "g" [] [] none none,
          .expr (.call "b" [.call "g" []])] none none,
        .select (.name "x") [.arm (some (.number "1")) (.expr (.call "f" [])),
          .arm none (.expr (.call "g" [])), .comment "end"]] ∧
      program.compile { backend := .graph } = .ok compiled ∧
      Node.AllClosed (Node.walkList true program.nodes) ∧
      compiled.module.calls = [.invoke "a", .wrapped "f", .invoke "b", .function "g", .invoke "f",
        .function "g"] ∧
      compiled.module.Registers "f" ∧ compiled.module.Registers "a" ∧
      compiled.module.Registers "b" ∧
      "g" ∉ program.functions ∧ "g" ∉ (Declared.ofProgram program).nodes ∧
      .invoke "g" ∉ compiled.module.calls := by
  refine exists_compiled_of _ rfl (by decide +kernel) fun program compiled hprogram _ hcompile => ?_
  have hclosed : Node.AllClosed (Node.walkList true program.nodes) := by
    subst hprogram
    intro subject arms hmem
    simp only [Node.walkList, Node.walk, Node.walkArms, ↓reduceIte, List.append_nil,
      List.cons_append, List.nil_append, List.mem_cons, reduceCtorEq, Node.select.injEq,
      List.not_mem_nil, or_self, or_false, false_or] at hmem
    obtain ⟨rfl, rfl⟩ := hmem
    rfl
  have hfunction : "g" ∉ program.functions := by
    subst hprogram
    decide
  have hnode : "g" ∉ (Declared.ofProgram program).nodes := by
    subst hprogram
    decide
  obtain ⟨hregistered, hnever⟩ := invoked_registered hcompile rfl hclosed
  refine ⟨hclosed, compiled_and (·.module.calls) hcompile (by subst hprogram; decide +kernel) fun hcalls =>
    ⟨hregistered "f" ?_, hregistered "a" ?_, hregistered "b" ?_, hfunction, hnode,
      hnever "g" hfunction hnode⟩⟩ <;>
  · rw [hcalls]
    simp

end AgentLang.Program
