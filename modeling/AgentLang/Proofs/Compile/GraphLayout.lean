import AgentLang.Proofs.Compile.Discipline
import AgentLang.Proofs.Target.Parts

/-!
# The layout of a graph

Around a graph every node of the top level has its place in the module. Nodes that do something are
steps, numbered in program order, and those that can be run from outside are entry points.
-/

namespace AgentLang

open List

namespace Node

/-- Whether a node of the top level does something when the program is run. -/
def isStep : Node → Bool
  | .newline => false
  | .comment _ => false
  | .blockComment _ => false
  | .importNames .. => false
  | .importNodes .. => false
  | .importTools .. => false
  | .hint .. => false
  | .uses _ => false
  | .function .. => false
  | .graphNode .. => false
  | _ => true

/-- The name under which a node of the top level can be run from outside. -/
def entry? : Node → Option String
  | .graphNode name _ _ _ visibility => if visibility = some .hidden then none else some name
  | _ => none

end Node

theorem Program.filterMap_entry? (program : Program) :
    program.nodes.filterMap Node.entry? =
      (program.graphNodes.filter fun node => node.visibility != some .hidden).map
        GraphNode.name := by
  unfold Program.graphNodes
  induction program.nodes with
  | nil => rfl
  | cons n rest ih =>
    cases n with
    | graphNode name parameters inner returns visibility =>
      by_cases h : visibility = some .hidden
      · simp [Node.entry?, h, ih]
      · simp [Node.entry?, h, ih]
    | _ => exact ih

namespace Target.Section

/-- The name of a step. -/
def step? : Section → Option Temp
  | .step temp .. => some temp
  | _ => none

def isStep (part : Section) : Bool := part.step?.isSome

def stepBody? : Section → Option (List Stmt)
  | .step _ _ body => some body
  | _ => none

/-- The node that an entry point runs. -/
def entry? : Section → Option String
  | .entryPoint node => some node
  | _ => none

end Target.Section

namespace Target

theorem quoteAscii_ne_empty (text : String) : Text.quoteAscii text ≠ "" := by
  intro h
  have hchars := congrArg String.toList h
  simp [Text.quoteAscii] at hchars

theorem entryPoint_toText (node : String) :
    (Section.entryPoint node).toText = Text.joinLines [
      "def run_" ++ node ++ "(*args, messages=None):",
      "    if messages is not None:",
      "        _ctx.messages = MessageThread(messages)",
      "    state = graph.run(" ++ Text.quoteAscii node ++
        ", \x7b\"messages\": _ctx.messages, \"data\": list(args)\x7d)",
      "    return state.get(\"data\")",
      ""] := by
  change "def run_" ++ (node ++ (_ ++ (Text.quoteAscii node ++ (_ ++ "")))) = _
  simp only [Template.fillPiece, Text.joinLines, String.intercalate_cons_cons,
    String.intercalate_singleton, String.append_assoc, String.append_empty]

namespace Module

variable (module : Module)

theorem edges_getElem? (i : Nat) (start stop : Temp) :
    module.edges[i]? = some (start, stop) ↔
      module.steps[i]? = some start ∧ module.steps[i + 1]? = some stop := by
  rw [edges, List.getElem?_zip_eq_some, List.getElem?_tail]

/-- What is run along with the module: the first step, or else the first node that can be run from
outside. A node without a name is not run. -/
def startLine : String :=
  match module.steps.head?, module.entries.head?.filter (· != "") with
  | some first, _ =>
    "    graph.run(" ++ Text.quoteAscii first.toText
      ++ ", \x7b\"messages\": _ctx.messages, \"data\": None\x7d)"
  | none, some node => "    print(run_" ++ node ++ "())"
  | none, none => "    pass"

theorem mainText_eq :
    module.mainText = "if __name__ == \"__main__\":\n" ++ module.startLine ++ "\n" := by
  unfold mainText startLine mainTemplate
  cases module.steps with
  | cons first rest =>
    have hquoted := quoteAscii_ne_empty first.toText
    simp [Template.fill, Template.fillPiece, Template.fillParts, Template.holds, Json.truth,
      hquoted, Json.display, List.lookup, String.append_assoc]
  | nil =>
    cases module.entries with
    | nil => rfl
    | cons node rest =>
      by_cases hname : node = ""
      · subst hname
        rfl
      · simp [Template.fill, Template.fillPiece, Template.fillParts, Template.holds, Json.truth,
          hname, Json.display, List.lookup, Option.filter, String.append_assoc]

end Module
end Target

namespace Compile

open Build
open State (Keeps)
open Target (Section Stmt Temp)

variable {declared : Declared} {n : Node} {nodes : List Node} {sections : List Section}
  {s s' : State}

/-! ### One node -/

/-- The section is the step that a node becomes. -/
def StepOf (declared : Declared) (n : Node) (part : Section) : Prop :=
  ∃ temp stmts s s', s.context.scope = .step ∧
    stepBody ⟨.graph, declared⟩ n s = (.ok stmts, s') ∧ part = .step temp n.assignedNames stmts

theorem stepSection_ok (h : stepSection ⟨.graph, declared⟩ n s = (.ok part, s')) :
    StepOf declared n part ∧ part.step? = some ⟨.step, s.context.counter + 1⟩ ∧
      s.context.counter < s'.context.counter := by
  obtain ⟨temp, first, htemp, h⟩ := bind_ok h
  cases htemp
  obtain ⟨stmts, last, hinner, h⟩ := bind_ok h
  cases h
  obtain ⟨after, hbody, rfl⟩ := between_ok hinner
  exact ⟨⟨_, stmts, _, after, rfl, hbody, rfl⟩, rfl, ((keeps_stepBody n).of_eq hbody).counter⟩

/-- What a node of the top level becomes. -/
inductive Contributes (declared : Declared) (n : Node) (s : State) :
    List Section → State → Prop where
  | nothing (hn : n = .newline) : Contributes declared n s [] s
  | outside {stmts : List Stmt} {others : List Section} {middle s' : State}
      (hn : n.isStep = false) (h : statement ⟨.graph, declared⟩ n s = (.ok stmts, middle))
      (hothers : ∀ part ∈ others, part.step? = none ∧ part.parts = [])
      (hentry : others.filterMap Section.entry? = n.entry?.toList) :
      Contributes declared n s (.statements stmts :: others) s'
  | step {part : Section} {s' : State} (hn : n.isStep)
      (h : stepSection ⟨.graph, declared⟩ n s = (.ok part, s')) : Contributes declared n s [part] s'

theorem nodeSections_contributes (h : nodeSections ⟨.graph, declared⟩ n s = (.ok group, s')) :
    Contributes declared n s group s' := by
  cases n with
  | newline =>
    cases h
    exact .nothing rfl
  | function name parameters inner returns doc =>
    obtain ⟨stmts, middle, hstmts, h⟩ := bind_ok h
    obtain ⟨holder, last, -, h⟩ := bind_ok h
    cases h
    exact .outside rfl hstmts (by simp [Section.step?, Section.parts]) rfl
  | graphNode name parameters inner returns visibility =>
    obtain ⟨stmts, middle, hstmts, h⟩ := bind_ok h
    cases h
    refine .outside rfl hstmts ?_ ?_
    · split <;> simp [Section.step?, Section.parts]
    · by_cases hhidden : visibility = some .hidden
      · simp [hhidden, isEntry, Node.entry?]
      · simp [hhidden, isEntry, Node.entry?, Section.entry?]
  | comment | blockComment | importNames | importNodes | importTools | hint | uses =>
    obtain ⟨stmts, middle, hstmts, h⟩ := bind_ok h
    cases h
    exact .outside rfl hstmts nofun rfl
  | _ =>
    obtain ⟨part, middle, hpart, h⟩ := bind_ok h
    cases h
    exact .step rfl hpart

/-! ### All nodes in order -/

/-- What the nodes of the top level become one after another. -/
inductive LaidOut (declared : Declared) : State → List Node → List Section → State → Prop where
  | nil (s : State) : LaidOut declared s [] [] s
  | cons {n : Node} {nodes : List Node} {group sections : List Section} {s middle s' : State}
      (first : Contributes declared n s group middle) (hkeeps : s.Keeps middle)
      (rest : LaidOut declared middle nodes sections s') :
      LaidOut declared s (n :: nodes) (group ++ sections) s'

theorem mapM_laidOut (h : nodes.mapM (nodeSections ⟨.graph, declared⟩) s = (.ok groups, s')) :
    LaidOut declared s nodes groups.flatten s' := by
  induction nodes generalizing groups s with
  | nil =>
    cases h
    exact .nil _
  | cons n rest ih =>
    rw [mapM_cons] at h
    obtain ⟨group, middle, hgroup, h⟩ := bind_ok h
    obtain ⟨others, last, hothers, h⟩ := bind_ok h
    cases h
    have hkeeps := (keeps_nodeSections n).of_eq hgroup
    exact .cons (nodeSections_contributes hgroup) hkeeps (ih hothers)

theorem laidOut_of_sections (h : Compile.sections ⟨.graph, declared⟩ program s = (.ok sections, s')) :
    LaidOut declared s program.nodes sections s' := by
  obtain ⟨groups, middle, hgroups, h⟩ := bind_ok h
  cases h
  exact mapM_laidOut hgroups

namespace Contributes

variable {group : List Section}

theorem steps (h : Contributes declared n s group s') :
    List.Forall₂ (StepOf declared) ([n].filter Node.isStep) (group.filter Section.isStep) := by
  cases h with
  | nothing hn =>
    subst hn
    exact .nil
  | @outside _ others _ _ hn h hothers hentry =>
    have hnone : others.filter Section.isStep = [] := by
      rw [filter_eq_nil_iff]
      intro part hpart
      simp [Section.isStep, hothers part hpart]
    simp [hn, hnone, Section.isStep, Section.step?]
  | step hn h =>
    obtain ⟨hpart, hstep, -⟩ := stepSection_ok h
    simp [hn, Section.isStep, hstep, hpart]

theorem entries (h : Contributes declared n s group s') :
    group.filterMap Section.entry? = n.entry?.toList := by
  cases h with
  | nothing hn =>
    subst hn
    rfl
  | outside hn h hothers hentry => exact hentry
  | step hn h =>
    obtain ⟨⟨temp, stmts, _, _, -, -, rfl⟩, -, -⟩ := stepSection_ok h
    cases n with
    | graphNode => exact nomatch hn
    | _ => rfl

theorem temps (h : Contributes declared n s group s') :
    group.filterMap Section.step? = [] ∨
      group.filterMap Section.step? = [⟨.step, s.context.counter + 1⟩] ∧
        s.context.counter < s'.context.counter := by
  cases h with
  | nothing hn => exact .inl rfl
  | outside hn h hothers hentry =>
    have hnone := filterMap_eq_nil_iff.mpr fun part hpart => (hothers part hpart).1
    exact .inl ((filterMap_cons_none rfl).trans hnone)
  | step hn h =>
    obtain ⟨-, hstep, hcounter⟩ := stepSection_ok h
    exact .inr ⟨by simp [hstep], hcounter⟩

end Contributes

theorem exists_of_forall₂ (h : List.Forall₂ R firsts seconds) (ha : a ∈ firsts) :
    ∃ b ∈ seconds, R a b := by
  induction h with
  | nil => exact nomatch ha
  | cons hfirst _ ih =>
    rcases mem_cons.mp ha with rfl | ha
    · exact ⟨_, mem_cons_self, hfirst⟩
    · obtain ⟨b, hb, hab⟩ := ih ha
      exact ⟨b, mem_cons_of_mem _ hb, hab⟩

namespace LaidOut

variable (h : LaidOut declared s nodes sections s')
include h

theorem steps :
    List.Forall₂ (StepOf declared) (nodes.filter Node.isStep)
      (sections.filter Section.isStep) := by
  induction h with
  | nil => exact .nil
  | @cons n nodes _ _ _ _ _ first hkeeps rest ih =>
    rw [← singleton_append, filter_append, filter_append]
    exact rel_append first.steps ih

theorem entries :
    sections.filterMap Section.entry? = nodes.filterMap Node.entry? := by
  induction h with
  | nil => rfl
  | @cons n nodes _ _ _ _ _ first hkeeps rest ih =>
    rw [filterMap_append, first.entries, ih]
    cases hentry : n.entry? with
    | none => rw [filterMap_cons_none hentry]; rfl
    | some name => rw [filterMap_cons_some hentry]; rfl

theorem contributes (hpart : part ∈ sections) :
    ∃ n ∈ nodes, ∃ u group u', Contributes declared n u group u' ∧ part ∈ group := by
  induction h with
  | nil => exact nomatch hpart
  | cons first hkeeps rest ih =>
    rcases mem_append.mp hpart with hpart | hpart
    · exact ⟨_, mem_cons_self, _, _, _, first, hpart⟩
    · obtain ⟨n, hn, hgroup⟩ := ih hpart
      exact ⟨n, mem_cons_of_mem _ hn, hgroup⟩

theorem stepOf (hpart : part ∈ sections)
    (hstep : part.isStep) : ∃ n ∈ nodes, StepOf declared n part := by
  obtain ⟨n, hn, hof⟩ := exists_of_forall₂ h.steps.flip (mem_filter.mpr ⟨hpart, hstep⟩)
  exact ⟨n, mem_of_mem_filter hn, hof⟩

theorem exists_step (hn : n ∈ nodes)
    (hstep : n.isStep) : ∃ part ∈ sections, StepOf declared n part := by
  obtain ⟨part, hpart, hof⟩ := exists_of_forall₂ h.steps (mem_filter.mpr ⟨hn, hstep⟩)
  exact ⟨part, mem_of_mem_filter hpart, hof⟩

theorem ascending :
    (∀ temp ∈ sections.filterMap Section.step?,
      temp.purpose = .step ∧ s.context.counter < temp.index) ∧
    (sections.filterMap Section.step?).Pairwise fun first second => first.index < second.index := by
  induction h with
  | nil => exact ⟨nofun, .nil⟩
  | cons first hkeeps rest ih =>
    obtain ⟨hlater, hpairs⟩ := ih
    rw [filterMap_append]
    rcases first.temps with hnone | ⟨hone, hcounter⟩
    · rw [hnone]
      refine ⟨fun temp htemp => ?_, hpairs⟩
      obtain ⟨hpurpose, hindex⟩ := hlater temp htemp
      exact ⟨hpurpose, hkeeps.counter.trans_lt hindex⟩
    · rw [hone, singleton_append]
      refine ⟨fun temp htemp => ?_, pairwise_cons.mpr ⟨fun temp htemp => ?_, hpairs⟩⟩
      · rcases mem_cons.mp htemp with rfl | htemp
        · exact ⟨rfl, Nat.lt_succ_self _⟩
        · obtain ⟨hpurpose, hindex⟩ := hlater temp htemp
          exact ⟨hpurpose, hcounter.trans hindex⟩
      · exact Nat.lt_of_le_of_lt hcounter (hlater temp htemp).2

end LaidOut

theorem toText_ne_of_index_lt {first second : Temp} (hpurpose : first.purpose = second.purpose)
    (h : first.index < second.index) : first.toText ≠ second.toText := by
  intro heq
  have hrepr : Nat.repr first.index = Nat.repr second.index := by
    simpa [Temp.toText, Target.numbered, hpurpose] using heq
  exact h.ne (Nat.repr_inj.mp hrepr)

theorem LaidOut.nodup (h : LaidOut declared s nodes sections s') :
    ((sections.filterMap Section.step?).map Temp.toText).Nodup := by
  obtain ⟨hpurpose, hpairs⟩ := h.ascending
  refine pairwise_map.mpr (hpairs.imp_of_mem fun hfirst hsecond hlt => ?_)
  exact toText_ne_of_index_lt ((hpurpose _ hfirst).1.trans (hpurpose _ hsecond).1.symm) hlt

/-! ### Modules -/

/-- The parts of a module around its graph follow the program: which sections there are, how they
are connected and what is run. -/
structure Follows (module : Target.Module) (program : Program) : Prop where
  /-- One step for each node that does something, in program order. -/
  steps : List.Forall₂ (StepOf (.ofProgram program)) (program.nodes.filter Node.isStep)
    (module.sections.filter Section.isStep)
  distinct : (module.steps.map Temp.toText).Nodup
  edges : ∀ i start stop, module.edges[i]? = some (start, stop) ↔
    module.steps[i]? = some start ∧ module.steps[i + 1]? = some stop
  edgeLines : module.edgesText = Text.joinLines (module.edges.map fun edge =>
    "graph.edge(" ++ Text.quoteAscii edge.1.toText ++ ", " ++ Text.quoteAscii edge.2.toText ++ ")")
  /-- One entry point for each graph node of the top level that is not private. -/
  entries : module.entries =
    (program.graphNodes.filter fun node => node.visibility != some .hidden).map GraphNode.name
  entryNames : ∀ node ∈ module.entries, ∃ rest, (Section.entryPoint node).toText =
    Text.joinLines (("def run_" ++ node ++ "(*args, messages=None):") :: rest)
  main : module.mainText = "if __name__ == \"__main__\":\n" ++ module.startLine ++ "\n"
  texts : ∃ setup, module.texts = [module.preludeText, Target.Builtin.helperSource module.used,
    Target.Module.graphText setup] ++ module.sections.map Section.toText ++
      [module.edgesText, module.mainText]

theorem LaidOut.follows (setup : Target.GraphSetup)
    (h : LaidOut (.ofProgram program) s program.nodes module.sections s')
    (hgraph : module.graph = some setup) : Follows module program where
  steps := h.steps
  distinct := h.nodup
  edges := module.edges_getElem?
  edgeLines := rfl
  entries := h.entries.trans program.filterMap_entry?
  entryNames node _ := ⟨_, Target.entryPoint_toText node⟩
  main := module.mainText_eq
  texts := by
    refine ⟨setup, ?_⟩
    rw [Target.Module.texts, hgraph]
    rfl

end Compile

namespace Program

open Compile

variable {program : Program} {options : CompileOptions} {compiled : Compiled}

theorem laidOut_of_compile (hbackend : options.backend = .graph)
    (h : program.compile options = .ok compiled) :
    LaidOut (.ofProgram program) {} program.nodes compiled.module.sections compiled.state := by
  have hsections := sections_of_compile h
  rw [hbackend] at hsections
  exact laidOut_of_sections hsections

/-- The graph of a module is laid out as the program is written. -/
theorem graph_follows_program (hbackend : options.backend = .graph)
    (h : program.compile options = .ok compiled) : Follows compiled.module program := by
  refine (laidOut_of_compile hbackend h).follows ⟨options.graphName, options.debug⟩ ?_
  rw [(sections_graph_of_compile h).2, CompileOptions.graphSetup?, hbackend]
  rfl

/-- Definitions, comments and private nodes are no steps, and the two statements are connected. -/
theorem graph_follows_program_connected :
    ∃ program compiled, program = Program.mk [.comment "c",
        .graphNode "a" [] [] none (some .hidden), .expr (.call "f" []), .newline,
        .function "f" [] [] none none, .graphNode "b" [] [] none none,
        .assign "x" none (.expr (.number "1"))] ∧
      program.compile { backend := .graph } = .ok compiled ∧ Follows compiled.module program ∧
      program.nodes.filter Node.isStep =
        [.expr (.call "f" []), .assign "x" none (.expr (.number "1"))] ∧
      compiled.module.steps.map Target.Temp.toText = ["_step_1", "_step_4"] ∧
      compiled.module.edgesText = "graph.edge(\"_step_1\", \"_step_4\")" ∧
      compiled.module.entries = ["b"] ∧
      compiled.module.startLine =
        "    graph.run(\"_step_1\", \x7b\"messages\": _ctx.messages, \"data\": None\x7d)" := by
  refine exists_compiled_of _ rfl (by decide +kernel) fun program compiled hprogram _ hcompile => ?_
  refine ⟨graph_follows_program rfl hcompile, by subst hprogram; rfl,
    compiled_eq (·.module.steps.map Target.Temp.toText) hcompile ?_,
    compiled_eq (·.module.edgesText) hcompile ?_, compiled_eq (·.module.entries) hcompile ?_,
    compiled_eq (·.module.startLine) hcompile ?_⟩
  all_goals
    subst hprogram
    decide +kernel

/-- A node without a name can be run from outside, and yet the module does not run it. -/
theorem unnamed_entry_not_run :
    ∃ program compiled, program = Program.mk [.graphNode "" [] [] none none] ∧
      program.compile { backend := .graph } = .ok compiled ∧
      (program.graphNodes.filter fun node => node.visibility != some .hidden).map GraphNode.name =
        [""] ∧
      compiled.module.steps = [] ∧ compiled.module.entries = [""] ∧
      compiled.module.mainText = "if __name__ == \"__main__\":\n    pass\n" ∧
      compiled.module.mainText ≠ "if __name__ == \"__main__\":\n    print(run_())\n" := by
  refine exists_compiled_of _ rfl (by decide +kernel) fun program compiled hprogram _ hcompile => ?_
  refine ⟨by subst hprogram; rfl, compiled_eq (·.module.steps) hcompile ?_,
    compiled_eq (·.module.entries) hcompile ?_,
    compiled_and (·.module.mainText) hcompile ?_ fun hmain => ?_⟩
  case refine_4 =>
    rw [hmain]
    decide
  all_goals
    subst hprogram
    decide +kernel

end Program
end AgentLang
