import AgentLang.Evaluation
import AgentLang.Proofs.Compile.GraphLayout

/-!
# Evaluation scripts and the modules that they run

An evaluation script picks a node of a program and imports the function that runs it. The module
that the program is compiled to defines that function. Where no node is asked for, the script picks
the node that the module would run if it had no steps.
-/

namespace AgentLang

open List

namespace Text

/-- The text stands in another one on lines of its own. -/
def StandsIn (text whole : String) : Prop :=
  ∃ before after, "\n" ++ whole = before ++ "\n" ++ text ++ "\n" ++ after

theorem getLast?_append (text : String) {tail : String} (h : tail.toList.getLast? = some c) :
    (text ++ tail).toList.getLast? = some c := by
  rw [String.toList_append, List.getLast?_append, h]
  rfl

theorem standsIn_intercalate (h : text ∈ texts) :
    StandsIn text ("\n\n\n".intercalate texts ++ "\n") := by
  induction texts with
  | nil => simp at h
  | cons first rest ih =>
    cases rest with
    | nil =>
      obtain rfl := List.mem_singleton.mp h
      exact ⟨"", "", by simp [String.append_assoc]⟩
    | cons second others =>
      rw [String.intercalate_cons_cons]
      rcases mem_cons.mp h with rfl | h
      · refine ⟨"", "\n\n" ++ "\n\n\n".intercalate (second :: others) ++ "\n", ?_⟩
        apply String.toList_inj.mp
        simp
      · obtain ⟨before, after, heq⟩ := ih h
        refine ⟨"\n" ++ first ++ "\n\n" ++ before, after, ?_⟩
        have hwhole :
            "\n" ++ (first ++ "\n\n\n" ++ "\n\n\n".intercalate (second :: others) ++ "\n") =
            "\n" ++ first ++ "\n\n" ++
              ("\n" ++ ("\n\n\n".intercalate (second :: others) ++ "\n")) := by
          apply String.toList_inj.mp
          simp
        rw [hwhole, heq]
        simp only [String.append_assoc]

end Text

namespace Target

open Text (StandsIn)

namespace Module

variable {module : Module} {text : String}

/-- A text without line ends at its two ends is left as it is, but for the one behind it. -/
theorem stripLineEnds_append (hfirst : text.toList.head? = some first)
    (hlast : text.toList.getLast? = some last) (hfirst' : first ≠ '\n') (hlast' : last ≠ '\n') :
    stripLineEnds (text ++ "\n") = text := by
  obtain ⟨rest, hrest⟩ := head?_eq_some_iff.mp hfirst
  obtain ⟨before, hbefore⟩ := getLast?_eq_some_iff.mp hlast
  have hstart : (text ++ "\n").toList.dropWhile (· == '\n') = text.toList ++ ['\n'] := by
    simp [hrest, hfirst']
  apply String.toList_inj.mp
  rw [stripLineEnds, hstart, hbefore]
  simp [hlast']

theorem standsIn_toText (hfirst : text.toList.head? = some first)
    (hlast : text.toList.getLast? = some last) (hblank : Text.isBlank first = false)
    (hfirst' : first ≠ '\n') (hlast' : last ≠ '\n') (hmem : text ++ "\n" ∈ module.texts) :
    StandsIn text module.toText := by
  obtain ⟨rest, hrest⟩ := head?_eq_some_iff.mp hfirst
  apply Text.standsIn_intercalate
  refine mem_map.mpr ⟨text ++ "\n", mem_filter.mpr ⟨hmem, ?_⟩, ?_⟩
  · simp [Text.isAllBlank, hrest, hblank]
  · exact stripLineEnds_append hfirst hlast hfirst' hlast'

theorem mem_entries : node ∈ module.entries ↔ .entryPoint node ∈ module.sections := by
  unfold entries
  rw [mem_filterMap]
  constructor
  · rintro ⟨part, hpart, hnode⟩
    cases part with
    | entryPoint name => exact Option.some.inj hnode ▸ hpart
    | _ => exact nomatch hnode
  · intro hpart
    exact ⟨_, hpart, rfl⟩

end Module

/-- The function that runs the graph from a node. -/
def entryFunction (node : String) : String :=
  Text.joinLines [
    "def run_" ++ node ++ "(*args, messages=None):",
    "    if messages is not None:",
    "        _ctx.messages = MessageThread(messages)",
    "    state = graph.run(" ++ Text.quoteAscii node ++
      ", \x7b\"messages\": _ctx.messages, \"data\": list(args)\x7d)",
    "    return state.get(\"data\")"]

theorem entryPoint_toText_eq (node : String) :
    (Section.entryPoint node).toText = entryFunction node ++ "\n" := by
  rw [entryPoint_toText, entryFunction]
  simp only [Text.joinLines, String.intercalate_cons_cons, String.intercalate_singleton,
    String.append_assoc, String.append_empty]

namespace Module

variable {module : Module}

theorem mem_texts (hgraph : module.graph.isSome) (hpart : part ∈ module.sections) :
    part.toText ∈ module.texts := by
  obtain ⟨setup, hsetup⟩ := Option.isSome_iff_exists.mp hgraph
  rw [texts, hsetup]
  have hmem : part.toText ∈ module.sections.map Section.toText := mem_map_of_mem hpart
  simp [hmem]

theorem entryFunction_standsIn (hgraph : module.graph.isSome) (h : node ∈ module.entries) :
    StandsIn (entryFunction node) module.toText := by
  have hmem := mem_texts hgraph (mem_entries.mp h)
  rw [entryPoint_toText_eq] at hmem
  have hfirst : (entryFunction node).toList.head? = some 'd' := by
    simp [entryFunction, Text.joinLines]
  have hlast : (entryFunction node).toList.getLast? = some ')' := by
    simp only [entryFunction, Text.joinLines, String.intercalate_cons_cons,
      String.intercalate_singleton]
    iterate 4 apply Text.getLast?_append
    simp
  exact standsIn_toText hfirst hlast (by decide) (by decide) (by decide) hmem

theorem main_standsIn (hgraph : module.graph.isSome) :
    StandsIn ("if __name__ == \"__main__\":\n" ++ module.startLine) module.toText := by
  obtain ⟨setup, hsetup⟩ := Option.isSome_iff_exists.mp hgraph
  have hmem : module.mainText ∈ module.texts := by simp [texts, hsetup]
  rw [mainText_eq] at hmem
  obtain ⟨last, hlast, hlast'⟩ : ∃ last,
      ("if __name__ == \"__main__\":\n" ++ module.startLine).toList.getLast? = some last ∧
        last ≠ '\n' := by
    unfold startLine
    split
    · exact ⟨')', by simp [List.getLast?_cons], by decide⟩
    · exact ⟨')', by simp [List.getLast?_cons], by decide⟩
    · exact ⟨'s', by simp, by decide⟩
  have hfirst : ("if __name__ == \"__main__\":\n" ++ module.startLine).toList.head? = some 'i' := by
    simp
  exact standsIn_toText hfirst hlast (by decide) (by decide) hlast' hmem

/-- The line that runs a node. A node without a name is not run. -/
def runLine (node : String) : String :=
  if node = "" then "    pass" else "    print(run_" ++ node ++ "())"

/-- What is run of the module is the node. -/
structure Starts (module : Module) (node : String) : Prop where
  startLine : module.startLine = runLine node
  main : StandsIn ("if __name__ == \"__main__\":\n" ++ runLine node) module.toText

theorem starts_of_first (hgraph : module.graph.isSome) (hsteps : module.steps = [])
    (hfirst : module.entries.head? = some node) : module.Starts node := by
  have hline : module.startLine = runLine node := by
    unfold Module.startLine runLine
    by_cases hname : node = ""
    · simp [hsteps, hfirst, hname, Option.filter]
    · simp [hsteps, hfirst, hname, Option.filter]
  constructor
  · exact hline
  · rw [← hline]
    exact main_standsIn hgraph

/-- The module without its steps. -/
def withoutSteps (module : Module) : Module :=
  { module with sections := module.sections.filter (!·.isStep) }

theorem steps_eq (module : Module) : module.steps = module.sections.filterMap Section.step? := rfl

theorem steps_eq_nil (h : module.sections.filter Section.isStep = []) : module.steps = [] := by
  rw [steps_eq, filterMap_eq_nil_iff]
  intro part hpart
  have hstep : ¬part.isStep := filter_eq_nil_iff.mp h part hpart
  simpa [Section.isStep] using hstep

theorem withoutSteps_steps (module : Module) : module.withoutSteps.steps = [] := by
  apply steps_eq_nil
  simp [withoutSteps]

theorem withoutSteps_entries (module : Module) : module.withoutSteps.entries = module.entries := by
  unfold entries withoutSteps
  rw [filterMap_filter]
  congr 1
  funext part
  cases part <;> rfl

end Module
end Target

namespace Program

/-- The program without the nodes that do something when it is run. -/
def withoutSteps (program : Program) : Program := ⟨program.nodes.filter (!·.isStep)⟩

theorem withoutSteps_graphNodes (program : Program) :
    program.withoutSteps.graphNodes = program.graphNodes := by
  unfold graphNodes withoutSteps
  rw [filterMap_filter]
  congr 1
  funext n
  cases n <;> rfl

end Program

namespace Compile.Follows

variable {module : Target.Module} {program : Program}

theorem steps_eq_nil (h : Follows module program.withoutSteps) : module.steps = [] := by
  have hnone : program.withoutSteps.nodes.filter Node.isStep = [] := by simp [Program.withoutSteps]
  have hsteps := h.steps
  rw [hnone] at hsteps
  exact Target.Module.steps_eq_nil (forall₂_nil_left_iff.mp hsteps)

theorem entries_head? (h : Follows module program) :
    module.entries.head? = (program.graphNodes.find? (·.isEntry)).map GraphNode.name := by
  rw [h.entries, List.head?_map, List.head?_filter]
  rfl

end Compile.Follows

namespace Program

open Compile

variable {program : Program} {options : CompileOptions} {compiled : Compiled}

theorem graph_of_compile (hbackend : options.backend = .graph)
    (h : program.compile options = .ok compiled) :
    compiled.module.graph = some ⟨options.graphName, options.debug⟩ := by
  rw [(sections_graph_of_compile h).2, CompileOptions.graphSetup?, hbackend]
  rfl

theorem follows_of_compile (hbackend : options.backend = .graph)
    (h : program.compile options = .ok compiled) : Follows compiled.module program :=
  (laidOut_of_compile hbackend h).follows _ (graph_of_compile hbackend h)

end Program

namespace Evaluation

open Text (StandsIn)

variable {program : Program} {choice : Option String} {module : String}
  {arguments : List LooseJson} {evaluation : Evaluation}

theorem pickNode_entry {node : GraphNode} (h : pickNode program choice = .ok node) :
    node ∈ program.graphNodes ∧ node.isEntry ∧ (∀ name ∈ choice, node.name = name) ∧
      (choice = none → program.graphNodes.find? (·.isEntry) = some node) := by
  cases choice with
  | some name =>
    unfold pickNode at h
    cases hfound : program.graphNode? name with
    | none => simp [hfound] at h
    | some found =>
      by_cases hentry : found.isEntry
      · simp only [hfound, hentry, if_true, Except.ok.injEq] at h
        subst h
        have hname : found.name = name := by simpa using List.find?_some hfound
        exact ⟨List.mem_of_find?_eq_some hfound, hentry, by simpa using hname, nofun⟩
      · simp [hfound, hentry] at h
  | none =>
    unfold pickNode at h
    cases hfound : program.graphNodes.find? (·.isEntry) with
    | none => simp [hfound] at h
    | some found =>
      simp only [hfound, Except.ok.injEq] at h
      subst h
      exact ⟨List.mem_of_find?_eq_some hfound, List.find?_some hfound, nofun, fun _ => rfl⟩

theorem ofProgram_ok (h : ofProgram program module choice arguments = .ok evaluation) :
    ∃ node, pickNode program choice = .ok node ∧ evaluation = ⟨module, node.name, arguments⟩ := by
  unfold ofProgram at h
  split at h
  · cases hpick : pickNode program choice with
    | error e =>
      rw [hpick] at h
      exact nomatch h
    | ok node =>
      rw [hpick] at h
      exact ⟨node, rfl, (Except.ok.inj h).symm⟩
  · exact nomatch h

theorem import_standsIn (evaluation : Evaluation) :
    StandsIn ("from " ++ evaluation.module ++ " import run_" ++ evaluation.node)
      evaluation.toText := by
  obtain ⟨rest, htext⟩ : ∃ rest, evaluation.toText =
      "# Evaluation harness generated by adlc. Do not edit.\nimport json\nimport sys\n\nfrom " ++
        (evaluation.module ++ (" import run_" ++
          (evaluation.node ++ ("\n\nRESULT_FILE = " ++ rest)))) :=
    ⟨_, rfl⟩
  refine ⟨"\n# Evaluation harness generated by adlc. Do not edit.\nimport json\nimport sys\n",
    "\nRESULT_FILE = " ++ rest, ?_⟩
  rw [htext]
  apply String.toList_inj.mp
  simp

/-- The script imports a function that the module defines. -/
structure Runs (evaluation : Evaluation) (module : Target.Module) : Prop where
  imports : StandsIn ("from " ++ evaluation.module ++ " import run_" ++ evaluation.node)
    evaluation.toText
  defines : StandsIn (Target.entryFunction evaluation.node) module.toText

/-- A script runs a function of the compiled program: that of the node asked for, or else that of
the node which the program would run if it had no steps. -/
theorem evaluation_runs_module {options : CompileOptions} {compiled : Compiled}
    (h : ofProgram program module choice arguments = .ok evaluation)
    (hbackend : options.backend = .graph) (hcompile : program.compile options = .ok compiled) :
    evaluation.Runs compiled.module ∧ evaluation.module = module ∧
      (∀ name ∈ choice, evaluation.node = name) ∧
      (choice = none → compiled.module.withoutSteps.Starts evaluation.node ∧
        ∀ other, program.withoutSteps.compile options = .ok other →
          other.module.Starts evaluation.node) := by
  obtain ⟨node, hpick, rfl⟩ := ofProgram_ok h
  obtain ⟨hmem, hentry, hname, hfirst⟩ := pickNode_entry hpick
  have hgraph := Program.graph_of_compile hbackend hcompile
  have hfollows := Program.follows_of_compile hbackend hcompile
  have hdefined : node.name ∈ compiled.module.entries := by
    rw [hfollows.entries]
    exact mem_map_of_mem (mem_filter.mpr ⟨hmem, hentry⟩)
  refine ⟨⟨import_standsIn _, ?_⟩, rfl, hname, fun hnone => ⟨?_, fun other hother => ?_⟩⟩
  · exact Target.Module.entryFunction_standsIn (by rw [hgraph]; rfl) hdefined
  · apply Target.Module.starts_of_first
    · rw [Target.Module.withoutSteps, hgraph]
      rfl
    · exact compiled.module.withoutSteps_steps
    · rw [Target.Module.withoutSteps_entries, hfollows.entries_head?, hfirst hnone]
      rfl
  · have hrest := Program.follows_of_compile hbackend hother
    apply Target.Module.starts_of_first
    · rw [Program.graph_of_compile hbackend hother]
      rfl
    · exact hrest.steps_eq_nil
    · rw [hrest.entries_head?, program.withoutSteps_graphNodes, hfirst hnone]
      rfl

/-- The first node is private, and the program has a step that is run ahead of any node. -/
theorem evaluation_runs_module_private :
    ∃ program evaluation compiled other, program = Program.mk [
        .graphNode "a" [] [] none (some .hidden), .expr (.number "1"),
        .graphNode "b" [] [] none none, .graphNode "a" [] [] none (some .shown)] ∧
      ofProgram program "m" none [] = .ok evaluation ∧
      program.compile { backend := .graph } = .ok compiled ∧
      program.withoutSteps.compile { backend := .graph } = .ok other ∧
      evaluation.node = "b" ∧ evaluation.Runs compiled.module ∧
      compiled.module.startLine =
        "    graph.run(\"_step_1\", \x7b\"messages\": _ctx.messages, \"data\": None\x7d)" ∧
      compiled.module.withoutSteps.Starts "b" ∧ other.module.Starts "b" := by
  obtain ⟨program, hprogram⟩ : ∃ program, program = Program.mk [
      .graphNode "a" [] [] none (some .hidden), .expr (.number "1"),
      .graphNode "b" [] [] none none, .graphNode "a" [] [] none (some .shown)] := ⟨_, rfl⟩
  have hevaluation : ofProgram program "m" none [] = .ok ⟨"m", "b", []⟩ := by
    have hmodule : isModuleName "m" = true := by decide +kernel
    rw [ofProgram, hmodule, hprogram]
    rfl
  obtain ⟨compiled, hcompile, hstart⟩ := Program.exists_compiled { backend := .graph }
    (fun compiled => compiled.module.startLine)
    (show (program.compile { backend := .graph }).map _ = .ok
        "    graph.run(\"_step_1\", \x7b\"messages\": _ctx.messages, \"data\": None\x7d)" by
      subst hprogram
      decide +kernel)
  obtain ⟨other, hother, -⟩ := Program.exists_compiled { backend := .graph } (fun _ => ())
    (show (program.withoutSteps.compile { backend := .graph }).map _ = .ok () by
      subst hprogram
      decide +kernel)
  obtain ⟨hruns, -, -, hnone⟩ := evaluation_runs_module hevaluation rfl hcompile
  obtain ⟨hwithout, hrest⟩ := hnone rfl
  exact ⟨program, _, compiled, other, hprogram, hevaluation, hcompile, hother, rfl, hruns, hstart,
    hwithout, hrest other hother⟩

/-- A node without a name is picked, and yet the module does not run it. -/
theorem unnamed_choice_not_run :
    ∃ program evaluation compiled, program = Program.mk [.graphNode "" [] [] none none] ∧
      ofProgram program "m" none [] = .ok evaluation ∧
      program.compile { backend := .graph } = .ok compiled ∧
      evaluation.node = "" ∧ compiled.module.steps = [] ∧
      compiled.module.startLine = "    pass" ∧
      compiled.module.startLine ≠ "    print(run_" ++ evaluation.node ++ "())" := by
  obtain ⟨program, hprogram⟩ : ∃ program, program = Program.mk [.graphNode "" [] [] none none] :=
    ⟨_, rfl⟩
  have hevaluation : ofProgram program "m" none [] = .ok ⟨"m", "", []⟩ := by
    have hmodule : isModuleName "m" = true := by decide +kernel
    rw [ofProgram, hmodule, hprogram]
    rfl
  obtain ⟨compiled, hcompile, hmodule⟩ := Program.exists_compiled { backend := .graph }
    (fun compiled => (compiled.module.steps, compiled.module.startLine))
    (show (program.compile { backend := .graph }).map _ = .ok ([], "    pass") by
      subst hprogram
      decide +kernel)
  simp only [Prod.mk.injEq] at hmodule
  obtain ⟨hsteps, hstart⟩ := hmodule
  refine ⟨program, _, compiled, hprogram, hevaluation, hcompile, rfl, hsteps, hstart, ?_⟩
  rw [hstart]
  decide

end Evaluation
end AgentLang
