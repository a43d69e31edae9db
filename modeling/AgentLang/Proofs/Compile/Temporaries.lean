import AgentLang.Proofs.Compile.Visible
import AgentLang.Proofs.Target.Temporaries
import AgentLang.Proofs.Text.Lines

/-!
# Temporary names of a compiled program

The numbers that are given out while a program is compiled are those from one up to the last. Every
one of them is taken by one construct of the module, and so no temporary name is bound twice.
Wherever a temporary name is used, it is bound.
-/

namespace AgentLang.Target.Stmt

/-- A statement that neither binds the result of a step nor returns it, and whose temporary name
says what it is for. -/
def Ordinary : Stmt → Prop
  | .hold .. => False
  | .retHeld _ => False
  | .select subject .. => subject.purpose = .subject
  | .thread saved .. => saved.purpose = .savedMessages
  | _ => True

/-- The statements and those inside them are ordinary. -/
def AllOrdinary (stmts : List Stmt) : Prop := ∀ part ∈ listParts stmts, part.Ordinary

namespace AllOrdinary

variable {stmt : Stmt} {stmts others : List Stmt}

theorem nil : AllOrdinary [] := fun _ h => absurd h List.not_mem_nil

theorem append (h : AllOrdinary stmts) (h' : AllOrdinary others) :
    AllOrdinary (stmts ++ others) := by
  intro part hpart
  rw [listParts_append, List.mem_append] at hpart
  exact hpart.elim (h part) (h' part)

theorem around (hparts : stmt.parts = stmt :: inside) (hstmt : stmt.Ordinary)
    (h : ∀ part ∈ inside, part.Ordinary) : AllOrdinary [stmt] := by
  intro part hpart
  rw [listParts_singleton, hparts] at hpart
  rcases List.mem_cons.mp hpart with rfl | hpart
  · exact hstmt
  · exact h part hpart

theorem leaf (hparts : stmt.parts = [stmt]) (hstmt : stmt.Ordinary) : AllOrdinary [stmt] :=
  around hparts hstmt fun _ h => absurd h List.not_mem_nil

theorem ifNot {p : Prop} [Decidable p] (h : AllOrdinary stmts) :
    AllOrdinary (if p then [] else stmts) := by
  split
  · exact nil
  · exact h

theorem prompts (functions : List PromptFunction) : AllOrdinary (functions.map .prompt) := by
  intro part hpart
  rw [listParts_prompts] at hpart
  obtain ⟨f, -, rfl⟩ := List.mem_map.mp hpart
  trivial

theorem notes (lines : List String) : AllOrdinary (lines.map .note) := by
  induction lines with
  | nil => exact nil
  | cons line rest ih =>
    have hline : AllOrdinary [.note line] := leaf rfl trivial
    exact hline.append ih

end AllOrdinary

theorem ordinary_branch (h : AllOrdinary stmts)
    (h' : ∀ part ∈ branchParts branches ++ otherwiseParts otherwise, part.Ordinary) :
    ∀ part ∈ branchParts ((condition, stmts) :: branches) ++ otherwiseParts otherwise,
      part.Ordinary := by
  rw [branchParts, List.append_assoc]
  exact fun part hpart => (List.mem_append.mp hpart).elim (h part) (h' part)

end AgentLang.Target.Stmt

namespace AgentLang.Target

open List

/-- The constructs of a section say what their names are for, and what is returned in it is bound in
it. -/
structure Section.Tidy (part : Section) : Prop where
  purposed : ∀ construct ∈ part.constructs, construct.Purposed
  held : ∀ temp ∈ part.parts.filterMap Stmt.held?, ∃ stmt ∈ part.parts, temp ∈ stmt.binds

theorem Stmt.Ordinary.purposed (h : stmt.Ordinary) : (Construct.stmt stmt).Purposed := by
  cases stmt with
  | hold => exact h.elim
  | select | thread => exact h
  | _ => trivial

theorem Stmt.Ordinary.held?_eq_none {stmt : Stmt} (h : stmt.Ordinary) : stmt.held? = none := by
  cases stmt with
  | retHeld => exact h.elim
  | _ => rfl

theorem Section.tidy_of_ordinary {part : Section} (hpart : (Construct.part part).Purposed)
    (h : ∀ stmt ∈ part.parts, stmt.Ordinary) : part.Tidy where
  purposed construct hconstruct := by
    rcases mem_cons.mp hconstruct with rfl | hconstruct
    · exact hpart
    · obtain ⟨stmt, hstmt, rfl⟩ := mem_map.mp hconstruct
      exact (h stmt hstmt).purposed
  held temp htemp := by
    obtain ⟨stmt, hstmt, hheld⟩ := mem_filterMap.mp htemp
    rw [(h stmt hstmt).held?_eq_none] at hheld
    cases hheld

theorem Section.tidy_result (assigned : Names) (functions : List PromptFunction) (code : Code)
    (htemp : temp.purpose = .step) (hholder : holder.purpose = .result) :
    (Section.step temp assigned
      (functions.map .prompt ++ [.hold holder code, .retHeld holder])).Tidy := by
  have hparts : (Section.step temp assigned
      (functions.map .prompt ++ [.hold holder code, .retHeld holder])).parts =
        functions.map .prompt ++ [.hold holder code, .retHeld holder] := by
    rw [Section.parts, Stmt.listParts_append, Stmt.listParts_prompts]
    rfl
  constructor
  · intro construct hconstruct
    rw [Section.constructs, hparts] at hconstruct
    simp only [map_append, map_map, mem_cons, mem_append, mem_map,
      map_cons, map_nil, not_mem_nil, or_false] at hconstruct
    obtain rfl | ⟨f, -, rfl⟩ | rfl | rfl := hconstruct
    · exact htemp
    · trivial
    · exact hholder
    · trivial
  · intro held hheld
    rw [hparts] at hheld ⊢
    obtain ⟨stmt, hstmt, hheld⟩ := mem_filterMap.mp hheld
    refine ⟨.hold holder code, by simp, ?_⟩
    rcases mem_append.mp hstmt with hstmt | hstmt
    · obtain ⟨f, -, rfl⟩ := mem_map.mp hstmt
      cases hheld
    · rcases mem_pair.mp hstmt with rfl | rfl
      · cases hheld
      · obtain rfl := Option.some.inj hheld
        exact mem_singleton_self _

/-! ### Bindings in the text -/

/-- The text assigns the name, or defines a function of that name. -/
def Temp.BoundIn (temp : Temp) (text : String) : Prop :=
  (temp.toText ++ " = ").toList <:+: text.toList ∨
    ("def " ++ temp.toText ++ "(").toList <:+: text.toList

theorem Temp.BoundIn.of_line {temp : Temp} {line : String} {lines : List String}
    (h : temp.BoundIn line) (hline : line ∈ lines) : temp.BoundIn (Text.joinLines lines) :=
  h.imp (·.trans (Text.infix_joinLines hline)) (·.trans (Text.infix_joinLines hline))

theorem Temp.boundIn_assigned (temp : Temp) (value : String) :
    temp.BoundIn (temp.toText ++ " = " ++ value) :=
  .inl ⟨[], value.toList, by simp⟩

/-- The text of a construct. -/
def Construct.text : Construct → String
  | .stmt inner => Text.joinLines inner.lines
  | .part inner => inner.toText

theorem PromptFunction.boundIn (f : PromptFunction) :
    (Temp.mk .prompt f.index).BoundIn (Text.joinLines f.lines) := by
  obtain ⟨rest, hrest⟩ := f.text_eq
  rw [lines, Text.joinLines_lines, hrest]
  exact .inr ⟨[], (commaSeparated f.parameters ++ "):\n" ++ rest).toList, by
    have hcall : (Code.prompt f.index f.parameters).toText = (Temp.mk .prompt f.index).toText ++
      "(" ++ commaSeparated f.parameters ++ ")" := rfl
    simp [hcall]⟩

theorem Stmt.boundIn {stmt : Stmt} {temp : Temp} (h : temp ∈ stmt.binds) :
    temp.BoundIn (Text.joinLines stmt.lines) := by
  cases stmt with
  | prompt function =>
    obtain rfl := List.mem_singleton.mp h
    exact function.boundIn
  | hold _ value | select _ value =>
    obtain rfl := List.mem_singleton.mp h
    exact (temp.boundIn_assigned value.toText).of_line mem_cons_self
  | thread saved kind body binding =>
    obtain rfl := List.mem_singleton.mp h
    have hline : temp.BoundIn (temp.toText ++ " = _ctx.messages") :=
      .inl ⟨[], "_ctx.messages".toList, by simp⟩
    exact hline.of_line mem_cons_self
  | timed index body prints binding =>
    have hline : temp.BoundIn (temp.toText ++ " = time.perf_counter()") :=
      .inl ⟨[], "time.perf_counter()".toList, by simp⟩
    rcases mem_pair.mp h with rfl | rfl
    · exact hline.of_line mem_cons_self
    · exact hline.of_line (mem_append_left _ (mem_append_left _
        (mem_append_right _ mem_cons_self)))
  | _ => cases h

theorem Construct.boundIn {construct : Construct} {temp : Temp} (h : temp ∈ construct.binds) :
    temp.BoundIn construct.text := by
  cases construct with
  | stmt inner => exact Stmt.boundIn h
  | part inner =>
    cases inner with
    | functionNode name arity holder =>
      obtain rfl := List.mem_singleton.mp h
      have hline : temp.BoundIn ("    " ++ temp.toText ++ " = " ++ name ++ "(*_node_args(state, " ++
          Nat.repr arity ++ "))") :=
        .inl ⟨"    ".toList, (name ++ "(*_node_args(state, " ++ Nat.repr arity ++ "))").toList,
          by simp⟩
      exact hline.of_line (mem_cons_of_mem _ (mem_cons_of_mem _ mem_cons_self))
    | step own assigned body =>
      obtain rfl := List.mem_singleton.mp h
      have hline : temp.BoundIn ("def " ++ temp.toText ++ "(state):") :=
        .inr ⟨[], "state):".toList, by simp⟩
      exact hline.of_line (mem_append_left _ (mem_cons_of_mem _ mem_cons_self))
    | _ => cases h

end AgentLang.Target

namespace AgentLang.Compile

open List
open Target (Choice Code PromptFunction Section Stmt)
open Target.Section (tidy_of_ordinary)
open Target.Stmt (AllOrdinary)

variable {setting : Setting}

mutual

theorem NodeBecomes.ordinary (h : NodeBecomes setting n first functions stmts n') :
    AllOrdinary stmts := by
  match h with
  | .expr _ | .parameter _ _ | .assign _ _ _ _ | .assignParameter _ _ _ _ _ | .setModel _
  | .setMessages _ | .importTools _ _ | .comment _ => exact .leaf rfl trivial
  | .uses _ | .newline => exact .nil
  | .function _ _ _ hinner | .plainNode _ _ _ _ hinner => exact .around rfl trivial hinner.ordinary
  | .graphNode _ hinner =>
    have hunpack (names : List String) : AllOrdinary [.unpack names] := .leaf rfl trivial
    have hclosing : AllOrdinary [.retState] := .leaf rfl trivial
    exact .around rfl trivial
      (((hunpack _).ifNot.append hinner.ordinary).append hclosing.ifNot)
  | .goto _ hstmt =>
    obtain ⟨-, rfl | rfl⟩ | ⟨-, rfl | ⟨handOn, rfl⟩⟩ := gotoStmt_ok hstmt <;>
      exact .leaf rfl trivial
  | .assignThread _ _ _ hinner | .thread _ hinner => exact .around rfl rfl hinner.ordinary
  | .assignTimed _ _ _ hinner | .timed _ hinner => exact .around rfl trivial hinner.ordinary
  | .retNothing hstmt | .ret _ hstmt =>
    obtain rfl | rfl | rfl := retStmt_ok hstmt <;> exact .leaf rfl trivial
  | .hint name type typeCode =>
    cases typeCode with
    | none => exact .nil
    | some code => exact .leaf rfl trivial
  | .ifElse _ hthen helse =>
    exact .around rfl trivial (Stmt.ordinary_branch hthen.ordinary helse.ordinary)
  | .loop _ hinner => exact .around rfl trivial hinner.ordinary
  | .select _ harms => exact .around rfl rfl harms.ordinary
  | .importNames hstmt =>
    obtain rfl | ⟨shortName, rfl⟩ := importStmt_ok hstmt <;> exact .leaf rfl trivial
  | .importNodes names path =>
    unfold importNodesStmt
    split <;> exact .leaf rfl trivial
  | .blockComment _ => exact .notes _

theorem BodyBecomes.ordinary (h : BodyBecomes setting n nodes stmts n') : AllOrdinary stmts := by
  match h with
  | .nil => exact .nil
  | .newline afterLineEnd hrest =>
    split
    · have hblank : AllOrdinary [.blank] := .leaf rfl trivial
      exact hblank.append hrest.ordinary
    · exact hrest.ordinary
  | .cons hfirst hrest =>
    exact ((AllOrdinary.prompts _).append hfirst.ordinary).append hrest.ordinary

theorem ElseBecomes.ordinary (h : ElseBecomes setting n other functions branches otherwise n') :
    ∀ part ∈ Stmt.branchParts branches ++ Stmt.otherwiseParts otherwise, part.Ordinary := by
  match h with
  | .none => exact fun _ h => absurd h not_mem_nil
  | .chain _ hthen helse => exact Stmt.ordinary_branch hthen.ordinary helse.ordinary
  | .last _ hnodes => exact hnodes.ordinary

theorem ArmsBecome.ordinary {choices : List Choice}
    (h : ArmsBecome setting n arms functions choices otherwise n') :
    ∀ part ∈ Stmt.choiceParts choices ++ Stmt.otherwiseParts otherwise, part.Ordinary := by
  match h with
  | .nil => exact fun _ h => absurd h not_mem_nil
  | .comment _ hrest => exact hrest.ordinary
  | .left _ hinner => exact (AllOrdinary.prompts _).append hinner.ordinary
  | .arm _ hinner hrest =>
    rw [Stmt.choiceParts, append_assoc]
    exact fun part hpart => (mem_append.mp hpart).elim
      ((AllOrdinary.prompts _).append hinner.ordinary part) (hrest.ordinary part)

end

/-! ### Sections -/

theorem PartBecomes.tidy (h : PartBecomes setting n first group n') :
    ∀ part ∈ group, part.Tidy := by
  intro part hpart
  cases h with
  | newline => cases hpart
  | function h =>
    rcases mem_cons.mp hpart with rfl | hpart
    · exact tidy_of_ordinary trivial ((AllOrdinary.prompts _).append h.ordinary)
    · obtain rfl := List.mem_singleton.mp hpart
      exact tidy_of_ordinary rfl fun _ h => absurd h not_mem_nil
  | graphNode h =>
    rcases mem_cons.mp hpart with rfl | hpart
    · exact tidy_of_ordinary trivial ((AllOrdinary.prompts _).append h.ordinary)
    · split at hpart
      · obtain rfl := List.mem_singleton.mp hpart
        exact tidy_of_ordinary trivial fun _ h => absurd h not_mem_nil
      · cases hpart
  | outside _ h =>
    obtain rfl := List.mem_singleton.mp hpart
    exact tidy_of_ordinary trivial ((AllOrdinary.prompts _).append h.ordinary)
  | value _ _ h =>
    obtain rfl := List.mem_singleton.mp hpart
    exact Target.Section.tidy_result _ _ _ rfl rfl
  | step _ _ h =>
    obtain rfl := List.mem_singleton.mp hpart
    have hclosing : AllOrdinary [.retState] := .leaf rfl trivial
    exact tidy_of_ordinary rfl (((AllOrdinary.prompts _).append h.ordinary).append hclosing.ifNot)

theorem PartsBecome.tidy {sections : List Section} (h : PartsBecome setting n nodes sections n') :
    ∀ part ∈ sections, part.Tidy := by
  induction h with
  | nil => exact fun _ h => absurd h not_mem_nil
  | cons hfirst _ ih =>
    exact fun part hpart => (mem_append.mp hpart).elim (hfirst.tidy part) (ih part)

theorem SectionsBecome.tidy {sections : List Section} (h : SectionsBecome setting nodes sections n) :
    ∀ part ∈ sections, part.Tidy := by
  cases h with
  | script _ h =>
    intro part hpart
    obtain rfl := List.mem_singleton.mp hpart
    exact tidy_of_ordinary trivial h.ordinary
  | graph _ h => exact h.tidy

end AgentLang.Compile

namespace AgentLang.Program

open List
open Target (Call Construct Section Stmt Temp)

variable {program : Program} {options : CompileOptions} {compiled : Compiled}

theorem prompt_of_call {setting : Compile.Setting} {module : Target.Module} {n : Nat}
    (h : Compile.SectionsBecome setting program.nodes module.sections n) {call : Call} {temp : Temp}
    (hcall : call ∈ module.calls) (hprompt : call.temp? = some temp) :
    ∃ f ∈ module.prompts, temp = ⟨.prompt, f.index⟩ := by
  cases call with
  | prompt index arguments =>
    obtain ⟨called, -, hroute⟩ | ⟨f, hf, heq⟩ | ⟨name, -, heq⟩ := (mem_calls_iff h).mp hcall
    · exact absurd hroute (Compile.prompt_notMem_route index arguments called)
    · cases heq
      exact ⟨f, hf, (Option.some.inj hprompt).symm⟩
    · cases heq
  | _ => cases hprompt

theorem mem_binds_of_uses {setting : Compile.Setting} {module : Target.Module} {n : Nat}
    (h : Compile.SectionsBecome setting program.nodes module.sections n) {temp : Temp}
    (htemp : temp ∈ module.uses) : temp ∈ module.binds := by
  unfold Target.Module.uses at htemp
  rcases mem_append.mp htemp with htemp | htemp
  · rcases mem_append.mp htemp with htemp | htemp
    · -- A prompt function is only called where there is one.
      obtain ⟨call, hcall, hprompt⟩ := mem_filterMap.mp htemp
      obtain ⟨f, hf, rfl⟩ := prompt_of_call h hcall hprompt
      obtain ⟨stmt, hstmt, hfunction⟩ := mem_filterMap.mp hf
      refine Target.Module.mem_binds_of_part hstmt ?_
      cases stmt with
      | prompt function =>
        obtain rfl := Option.some.inj hfunction
        exact mem_singleton_self _
      | _ => cases hfunction
    · obtain ⟨stmt, hstmt, hheld⟩ := mem_filterMap.mp htemp
      obtain ⟨part, hpart, hstmt⟩ := mem_flatMap.mp hstmt
      obtain ⟨binder, hbinder, hbinds⟩ := (h.tidy part hpart).held temp
        (mem_filterMap.mpr ⟨stmt, hstmt, hheld⟩)
      exact Target.Module.mem_binds_of_part (mem_flatMap.mpr ⟨part, hpart, hbinder⟩) hbinds
  · obtain ⟨⟨start, stop⟩, hedge, htemp⟩ := mem_flatMap.mp htemp
    obtain ⟨hstart, hstop⟩ := of_mem_zip hedge
    rcases mem_pair.mp htemp with rfl | rfl
    · exact Target.Module.mem_binds_of_step hstart
    · exact Target.Module.mem_binds_of_step (mem_of_mem_tail hstop)

theorem numbers_of_compile (h : program.compile options = .ok compiled) :
    compiled.module.numbers.Perm (List.range' 1 compiled.state.context.counter) := by
  apply Multiset.coe_eq_coe.mp
  rw [compiled.module.numbers_eq, (becomes_of_compile h).1.accounts.numbers]
  rfl

/-- The constructs of a compiled program take the numbers from one up to the last, each of them one,
and bind names with their own numbers in their own texts. No name is bound twice, and two names with
one number belong to one time measurement. What is used is bound, exactly once. -/
theorem temporaries_distinct (h : program.compile options = .ok compiled) :
    compiled.module.numbers.Perm (List.range' 1 compiled.state.context.counter) ∧
    (compiled.module.binds.map Temp.toText).Nodup ∧
    (∀ construct ∈ compiled.module.constructs, construct.Purposed ∧
      ∀ temp ∈ construct.binds, construct.number? = some temp.index ∧
        temp.BoundIn construct.text) ∧
    (∀ first ∈ compiled.module.binds, ∀ second ∈ compiled.module.binds,
      first.index = second.index → first.SameConstruct second) ∧
    ∀ temp ∈ compiled.module.uses, compiled.module.binds.count temp = 1 := by
  have hbecomes := (becomes_of_compile h).1
  have hnumbers := numbers_of_compile h
  have hdistinct : compiled.module.numbers.Nodup := hnumbers.nodup_iff.mpr nodup_range'
  have hbinds : compiled.module.binds.Nodup := Construct.nodup_flatMap_binds hdistinct
  refine ⟨hnumbers, hbinds.map Temp.toText_injective, fun construct hconstruct => ⟨?_, ?_⟩, ?_, ?_⟩
  · obtain ⟨part, hpart, hconstruct⟩ := mem_flatMap.mp hconstruct
    exact (hbecomes.tidy part hpart).purposed construct hconstruct
  · exact fun temp htemp => ⟨Construct.number?_of_mem_binds htemp, Construct.boundIn htemp⟩
  · intro first hfirst second hsecond hindex
    obtain ⟨construct, -, hone, hother⟩ :=
      Construct.exists_of_index_eq hdistinct hfirst hsecond hindex
    exact Construct.sameConstruct hone hother
  · exact fun temp htemp => count_eq_one_of_mem hbinds (mem_binds_of_uses hbecomes htemp)

/-- A step that measures the time of a selection over a prompt, with a thread in one arm, behind a
function. -/
theorem temporaries_distinct_nested :
    ∃ program compiled,
      program = Program.mk [.function "f" [] [] none none,
        .timed [.select (.prompt [.text "a"] none)
          [.arm (some (.number "1")) (.thread .fresh [])]] false, .expr (.name "x")] ∧
      program.compile { backend := .graph } = .ok compiled ∧
      compiled.module.binds = [⟨.result, 1⟩, ⟨.step, 2⟩, ⟨.timeStart, 3⟩, ⟨.timeEnd, 3⟩,
        ⟨.prompt, 5⟩, ⟨.subject, 4⟩, ⟨.savedMessages, 6⟩, ⟨.step, 7⟩, ⟨.result, 8⟩] ∧
      compiled.module.uses = [⟨.prompt, 5⟩, ⟨.result, 8⟩, ⟨.step, 2⟩, ⟨.step, 7⟩] ∧
      (compiled.module.binds.map Temp.toText).Nodup ∧
      ∀ temp ∈ compiled.module.uses, compiled.module.binds.count temp = 1 := by
  refine exists_compiled_of _ rfl (by decide +kernel) fun program compiled hprogram _ hcompile => ?_
  obtain ⟨-, hnodup, -, -, hcount⟩ := temporaries_distinct hcompile
  refine compiled_and (·.module.binds) hcompile (by subst hprogram; decide +kernel) fun _ => ?_
  exact compiled_and (·.module.uses) hcompile (by subst hprogram; decide +kernel) fun _ =>
    ⟨hnodup, hcount⟩

end AgentLang.Program
