import AgentLang.Proofs.Compile.Account
import AgentLang.Proofs.Compile.Mentions
import AgentLang.Proofs.Compile.Temporaries
import AgentLang.Proofs.Grammar.Reading

/-!
# Names that emitted code binds for itself

A prompt function has two local names, a function of the graph has a parameter, and temporaries are
numbered. They are fixed without regard to the program, so one of its names can be taken for another
where it is emitted. Emitted code is free of this if the names of the program are.
-/

namespace AgentLang

open List

/-! ### Selected tools -/

namespace Turn

def tools : Turn → List String
  | .selects tools => tools
  | _ => []

theorem exists_of_mem_gathered (h : tool ∈ gathered passed turns) :
    ∃ turn ∈ turns, tool ∈ turn.tools := by
  fun_induction gathered passed turns with
  | case1 => exact absurd h not_mem_nil
  | case2 tools earlier ih =>
    rcases mem_append.mp h with h | h
    · obtain ⟨turn, hturn, htool⟩ := ih h
      exact ⟨turn, mem_cons_of_mem _ hturn, htool⟩
    · exact ⟨.selects tools, mem_cons_self, h⟩
  | case3 | case4 => exact absurd h not_mem_nil
  | case5 _ _ ih | case6 _ _ ih | case7 _ _ _ _ _ ih =>
    obtain ⟨turn, hturn, htool⟩ := ih h
    exact ⟨turn, mem_cons_of_mem _ hturn, htool⟩

theorem exists_of_mem_selected (h : tool ∈ selected turns) : ∃ turn ∈ turns, tool ∈ turn.tools := by
  obtain ⟨turn, hturn, htool⟩ := exists_of_mem_gathered (mem_eraseDups.mp h)
  exact ⟨turn, mem_reverse.mp hturn, htool⟩

end Turn

namespace Target

/-! ### Names in scope -/

namespace PromptFunction

/-- The names that the function for a prompt assigns for itself. -/
def locals : List String := ["prompt", "response"]

theorem assigns_locals (f : PromptFunction) {name : String} (h : name ∈ locals) :
    (name ++ " = ").toList <:+: (Text.joinLines f.lines).toList := by
  have hpiece {value : String} (hvalue : .text value ∈ template) :
      value.toList <:+: (template.fill f.arguments).toList := by
    have hshown : Template.fillPiece f.arguments (.text value) = value := rfl
    rw [← hshown]
    exact Template.infix_fill f.arguments hvalue
  rw [lines, Text.joinLines_lines]
  rcases mem_pair.mp h with rfl | rfl
  · have hname : ("prompt" ++ " = ").toList <:+: "):\n    prompt = ".toList := by decide +kernel
    refine hname.trans (hpiece ?_)
    simp [template]
  · have hname : ("response" ++ " = ").toList <:+: "    response = _ctx.client.text(".toList := by
      decide +kernel
    have hlines : .text (Text.joinLines ["",
        "    _ctx.messages.add_user(prompt)",
        "    response = _ctx.client.text(",
        "        messages=_ctx.messages.get_messages(),",
        "        response_schema="]) ∈ template := by simp [template]
    refine (hname.trans (Text.infix_joinLines ?_)).trans (hpiece hlines)
    simp

end PromptFunction

/-- The parameter of a function of the graph. -/
def nodeParameter : String := "state"

theorem nodeHeader_parameter (name : String) :
    ("(" ++ nodeParameter ++ "):").toList <:+: (Text.joinLines (nodeHeader name)).toList := by
  have hend : "(" ++ nodeParameter ++ "):" = "(state):" := by decide
  have hline : "(state):".toList <:+: ("def " ++ name ++ "(state):").toList := by
    rw [String.toList_append]
    exact (suffix_append _ _).isInfix
  rw [hend]
  exact hline.trans (Text.infix_joinLines (by simp [nodeHeader]))

namespace Mention

/-- The names that emitted code binds for itself where an item is mentioned. -/
def bound (temps : List Temp) (mention : Mention) : List String :=
  (if mention.inPrompt then PromptFunction.locals else []) ++
    (if mention.place.node then [nodeParameter] else []) ++ temps.map Temp.toText

/-- What is mentioned is none of the names that are bound there. -/
def Clear (temps : List Temp) : Mention → Prop
  | mention@⟨_, _, .name ident⟩ => ident ∉ mention.bound temps
  | ⟨_, _, .literal ..⟩ => True

instance (temps : List Temp) : (mention : Mention) → Decidable (mention.Clear temps)
  | ⟨_, _, .name _⟩ => inferInstanceAs (Decidable (_ ∉ _))
  | ⟨_, _, .literal ..⟩ => inferInstanceAs (Decidable True)

end Mention

namespace Module

/-- The tools that prompt functions offer by name, each where it is read. -/
def offers (module : Module) : List Mention :=
  module.placed.flatMap fun (place, stmt) =>
    stmt.prompt?.toList.flatMap fun f => f.tools.map fun tool => ⟨place, true, .name tool⟩

/-- No name of the program is bound by the emitted code for itself where it is emitted. -/
def Hygienic (module : Module) : Prop :=
  ∀ mention ∈ module.mentions ++ module.offers, mention.Clear module.binds

instance (module : Module) : Decidable module.Hygienic :=
  inferInstanceAs (Decidable (∀ mention ∈ module.mentions ++ module.offers, _))

variable {module : Module} {mention : Mention}

/-- A tool is offered by the function of a prompt, whose text is mentioned at the same place. -/
theorem exists_of_mem_offers (h : mention ∈ module.offers) :
    ∃ f ∈ module.prompts, ∃ tool ∈ f.tools, mention = ⟨mention.place, true, .name tool⟩ ∧
      ⟨mention.place, true, .literal f.text false⟩ ∈ module.mentions := by
  obtain ⟨⟨place, stmt⟩, hpart, h⟩ := mem_flatMap.mp h
  obtain ⟨f, hf, h⟩ := mem_flatMap.mp h
  obtain ⟨tool, htool, rfl⟩ := mem_map.mp h
  have hprompt : stmt.prompt? = some f := Option.mem_toList.mp hf
  have hstmt : stmt ∈ module.parts := by
    rw [← module.map_snd_placed]
    exact mem_map_of_mem hpart
  refine ⟨f, mem_filterMap.mpr ⟨stmt, hstmt, hprompt⟩, tool, htool, rfl, ?_⟩
  refine mem_mentions_of_placed hpart (mem_append_left _ ?_)
  cases stmt <;> cases hprompt
  exact mem_cons_self

end Module

end Target

namespace Program

open Compile
open Target (PromptFunction Mention nodeHeader nodeParameter)

variable {program : Program} {options : CompileOptions} {compiled : Compiled}

/-- Tools are offered only where the program selects them. -/
theorem exists_turn_of_tool (h : program.compile options = .ok compiled)
    (hf : f ∈ compiled.module.prompts) (htool : tool ∈ f.tools) :
    ∃ turn ∈ program.turns, tool ∈ turn.tools := by
  have hrun := sections_of_compile h
  rw [← run_recordSections] at hrun
  obtain ⟨functions, _, rfl, haccount⟩ := emits_recordSections program {} _ _ hrun
  have hrecorded : f ∈ (program.journal options.backend).filterMap Event.prompt? :=
    haccount.prompts.mem_iff.mpr (mem_append_right _ hf)
  obtain ⟨event, hevent, hprompt⟩ := mem_filterMap.mp hrecorded
  obtain rfl : event = .prompt f := by
    cases event <;> cases hprompt
    rfl
  obtain ⟨before, after, hjournal⟩ := append_of_mem hevent
  have hlawful : Lawful [] (program.journal options.backend) := (haccount.tools [] rfl).1
  rw [hjournal] at hlawful
  rw [hlawful.tools, nil_append] at htool
  obtain ⟨turn, hturn, htool⟩ := Turn.exists_of_mem_selected htool
  refine ⟨turn, ?_, htool⟩
  have hturns : (program.journal options.backend).filterMap Event.turn? = program.turns :=
    haccount.inOrder
  rw [← hturns, hjournal, filterMap_append]
  exact mem_append_left _ hturn

/-- Prompt functions assign their local names, functions of the graph have their parameter, and the
temporaries are numbered from one up to the last number. A compiled program is hygienic only if no
name of the program is, where it is emitted, one of these. If this holds of the selected tools too,
the compiled program is hygienic. -/
theorem hygienic_of_clear (h : program.compile options = .ok compiled) :
    (∀ f ∈ compiled.module.prompts, ∀ name ∈ PromptFunction.locals,
      (name ++ " = ").toList <:+: (Text.joinLines f.lines).toList) ∧
    (∀ name, ("(" ++ nodeParameter ++ "):").toList <:+:
      (Text.joinLines (nodeHeader name)).toList) ∧
    (∀ temp ∈ compiled.module.binds,
      1 ≤ temp.index ∧ temp.index ≤ compiled.state.context.counter) ∧
    (compiled.module.Hygienic →
      ∀ mention ∈ program.mentions options.backend, mention.Clear compiled.module.binds) ∧
    ((∀ mention ∈ program.mentions options.backend, mention.Clear compiled.module.binds) →
      (∀ turn ∈ program.turns, ∀ tool ∈ turn.tools, ∀ mention ∈ program.mentions options.backend,
        mention.inPrompt = true →
        (Mention.mk mention.place true (.name tool)).Clear compiled.module.binds) →
      compiled.module.Hygienic) := by
  have hmentions := mentions_of_compile h
  refine ⟨fun f _ name hname => f.assigns_locals hname, Target.nodeHeader_parameter,
    fun temp htemp => ?_, fun hhygienic mention hmention => ?_,
    fun hnames htools mention hmention => ?_⟩
  · have hnumber := (numbers_of_compile h).subset (Target.Construct.mem_filterMap_number? htemp)
    rw [List.mem_range'_1] at hnumber
    omega
  · rw [hmentions] at hmention
    exact hhygienic mention (mem_append_left _ hmention)
  · rcases mem_append.mp hmention with hmention | hmention
    · refine hnames mention ?_
      rw [hmentions]
      exact hmention
    · obtain ⟨f, hf, tool, htool, hoffer, htext⟩ := Target.Module.exists_of_mem_offers hmention
      obtain ⟨turn, hturn, hselected⟩ := exists_turn_of_tool h hf htool
      have hasked : ⟨mention.place, true, .literal f.text false⟩ ∈
          program.mentions options.backend := by
        rw [hmentions]
        exact htext
      rw [hoffer]
      exact htools turn hturn tool hselected ⟨mention.place, true, .literal f.text false⟩ hasked rfl

/-- A graph node that asks with its parameter and a function as a tool. -/
theorem hygienic_of_clear_node :
    ∃ program compiled,
      program = Program.mk [.function "f" [] [] none none,
        .graphNode "main" [⟨"x", none⟩] [.uses ["f"],
          .assign "y" none (.expr (.prompt [.text "hi"] (some [("temperature", .name "x")])))]
          none none] ∧
      program.compile { backend := .graph } = .ok compiled ∧
      compiled.module.binds = [⟨.result, 1⟩, ⟨.prompt, 2⟩] ∧
      compiled.module.offers = [⟨.graph, true, .name "f"⟩] ∧ compiled.module.Hygienic := by
  refine exists_compiled_of _ rfl (by decide +kernel) fun program compiled hprogram _ hcompile => ?_
  refine compiled_and (·.module.binds) hcompile (by subst hprogram; decide +kernel) fun hbinds => ?_
  refine compiled_and (·.module.offers) hcompile (by subst hprogram; decide +kernel) fun _ =>
    (hygienic_of_clear hcompile).2.2.2.2 ?_ ?_
  all_goals
    rw [hbinds]
    subst hprogram
    decide +kernel

section

-- The text is read by evaluation, which goes deeper than the limit allows.
set_option maxRecDepth 2000

/-- A variable that is called like the local name of the function that reads it. -/
theorem response_not_hygienic :
    ∃ program compiled,
      parse "response = 1\nx = llm(\"hi\", \x7btemperature: response\x7d)" none = .ok program ∧
      program.compile {} = .ok compiled ∧
      ⟨.top, true, .name "response"⟩ ∈ compiled.module.mentions ∧ ¬compiled.module.Hygienic := by
  refine exists_compiled_of ⟨[.assign "response" none (.expr (.number "1")), .newline, .assign "x" none
    (.expr (.prompt [.text "hi"] (some [("temperature", .name "response")])))]⟩
    (parse_eq_ok 12 rfl rfl) (by decide +kernel) fun program compiled hprogram _ hcompile =>
      ⟨of_decide_eq_true ?_, of_decide_eq_false ?_⟩
  · exact compiled_eq (fun compiled => decide (_ ∈ compiled.module.mentions)) hcompile
      (by subst hprogram; decide +kernel)
  · exact compiled_eq (fun compiled => decide compiled.module.Hygienic) hcompile
      (by subst hprogram; decide +kernel)

end

end Program
end AgentLang
