import AgentLang.Proofs.Compile.Mentions
import AgentLang.Proofs.Grammar.Reading

/-!
# Literals in the text of a compiled program

A literal of the program is emitted as one stretch of text, however deep it is nested. The lines of
a prompt function are cut before they are indented, so there a literal must not hold a line end:
what follows the line end would be moved to the right.
-/

namespace AgentLang

open List

namespace Target

open Text (Lacks)

variable {c : Char}

theorem lacks_block (hc : c ≠ ' ') (h : ∀ line ∈ lines, '\n' ∉ line.toList) :
    ∀ line ∈ block lines, Lacks c line := by
  intro line hline
  obtain ⟨own, hown, rfl⟩ := mem_map.mp hline
  have hplain : '\n' ∉ own.toList := by
    have htrim : trimEmpty lines ⊆ lines := by
      intro line hline
      rw [trimEmpty, mem_reverse] at hline
      exact dropWhile_subset _ (mem_reverse.mp (dropWhile_subset _ hline))
    rw [fillBody] at hown
    split at hown
    · exact h own (htrim hown)
    · rcases mem_append.mp hown with hown | hown
      · exact h own (htrim hown)
      · rw [List.mem_singleton.mp hown]
        decide
  rw [indentLine]
  split
  · exact Text.lacks_ofList rfl
  · have hblanks : "    ".toList = [' ', ' ', ' ', ' '] := rfl
    rw [Lacks, String.toList_append, hblanks]
    simp [Text.lacksStart, hc.symm, Text.lacksStart_of_notMem _ hplain]

theorem Module.lacks_toText {module : Module} (hc : c ≠ '\n')
    (h : ∀ text ∈ module.texts, Lacks c text) : Lacks c module.toText := by
  refine (Text.lacks_intercalate (Text.lacks_ofList ?_) fun text htext => ?_).append
    (Text.lacks_ofList ?_)
  · simp [Text.lacksStart, hc.symm]
  · obtain ⟨own, hown, rfl⟩ := mem_map.mp htext
    have hstart := Text.lacksStart_dropWhile (h own (mem_of_mem_filter hown))
    obtain ⟨cut, hcut⟩ := reverse_prefix.mpr
      (dropWhile_suffix (fun c => c == '\n') (l := (own.toList.dropWhile (· == '\n')).reverse))
    rw [reverse_reverse] at hcut
    rw [← hcut] at hstart
    exact Text.lacks_ofList (Text.lacksStart_left hstart)
  · simp [Text.lacksStart, hc.symm]

theorem Module.lacks_preludeText {module : Module} (hgraph : module.graph = none)
    (hmodel : Lacks 'b' module.model.compact) (hhost : Lacks 'b' module.host.compact) :
    Lacks 'b' module.preludeText := by
  have hlines {lines : List String} (h : ∀ line ∈ lines, Lacks 'b' line) :
      Lacks 'b' (Text.joinLines lines) := Text.lacks_joinLines (by decide) h
  simp only [preludeText, hgraph, Option.isSome_none, preludeTemplate, Template.fill,
    Template.fillPiece, Template.fillParts, Template.holds, List.lookup, BEq.rfl, Option.any_some,
    Json.truth, bne_self_eq_false, Bool.false_eq_true, ↓reduceIte, Option.getD_none,
    String.reduceBEq, Option.map_some, Json.display, Option.getD_some, String.append_empty,
    String.empty_append]
  refine (hlines ?_).append <| .append (Text.lacks_ofList rfl) <| .append hmodel <|
    .append (hlines ?_) <| .append hhost (hlines ?_)
  all_goals
    simp only [forall_mem_cons, not_mem_nil, false_imp_iff, implies_true, and_true]
    and_intros
  all_goals exact Text.lacks_ofList rfl

/-- In a script of one function that only asks, the lines of the prompt are behind blanks. -/
theorem Module.lacks_toText_define {module : Module} {f : PromptFunction} {result : Option String}
    (hgraph : module.graph = none) (hused : module.used = [])
    (hmodel : Lacks 'b' module.model.compact) (hhost : Lacks 'b' module.host.compact)
    (hsections : module.sections =
      [.statements [.define "f" [] result none [.prompt f, .expr (.prompt 1 [])]]])
    (hheader : Lacks 'b' (defineHeader "f" [] result)) : Lacks 'b' module.toText := by
  have hcall : (Code.prompt 1 []).toText = "_prompt_1()" := by decide +kernel
  refine Module.lacks_toText (by decide) ?_
  simp only [texts, hgraph, hused, hsections, map_cons, map_nil, cons_append,
    nil_append, forall_mem_cons, not_mem_nil, false_imp_iff, implies_true, and_true]
  refine ⟨lacks_preludeText hgraph hmodel hhost, Text.lacks_ofList rfl,
    Text.lacks_joinLines (by decide) ?_⟩
  simp only [Stmt.listLines, Stmt.lines, hcall, docLines, nil_append, append_nil,
    forall_mem_cons]
  refine ⟨hheader, lacks_block (by decide) fun line hline => ?_⟩
  rcases mem_append.mp hline with hline | hline
  · exact Text.lineEnd_notMem_line hline
  · rw [List.mem_singleton.mp hline]
    decide

end Target

theorem Compile.SectionsBecome.asking {setting : Compile.Setting} {name : String}
    {segments : List Segment} {returns : Option Ty} {doc : Option String}
    {sections : List Target.Section} {n : Nat} (hbackend : setting.backend = .script)
    (h : SectionsBecome setting [.function name [] [.expr (.prompt segments none)] returns doc]
      sections n) :
    ∃ result f, sections = [.statements [.define name [] result doc
      [.prompt f, .expr (.prompt 1 (Segment.names segments))]]] := by
  cases h with
  | graph hgraph => rw [hbackend] at hgraph; cases hgraph
  | script _ hbody =>
    obtain _ | _ | ⟨hfirst, hrest⟩ := hbody
    cases hrest
    cases hfirst with
    | function shown result hshown hinner =>
      obtain rfl := map_eq_nil_iff.mp hshown
      obtain _ | _ | ⟨hasked, hnone⟩ := hinner
      cases hnone
      obtain ⟨hvalue⟩ := hasked
      cases hvalue with
      | prompt _ schema tools hconfig =>
        cases hconfig
        exact ⟨result, _, rfl⟩

namespace Program

open Target (Place stringLiteral)

variable {program : Program} {options : CompileOptions} {compiled : Compiled}

/-- The emitted literals are those of the program, and each of them stands unbroken in the text of
the module, unless it holds a line end and belongs to a prompt function inside of a block. -/
theorem literals_unbroken (h : program.compile options = .ok compiled) :
    program.mentions options.backend = compiled.module.mentions ∧
    ∀ place inPrompt segments multiline,
      ⟨place, inPrompt, .literal segments multiline⟩ ∈ program.mentions options.backend →
      (inPrompt = true → place.indented = true → '\n' ∉ (stringLiteral segments multiline).toList) →
      (stringLiteral segments multiline).toList <:+: compiled.module.toText.toList := by
  have hmentions := mentions_of_compile h
  refine ⟨hmentions, fun place inPrompt segments multiline hmention hlines => ?_⟩
  rw [hmentions] at hmention
  exact Target.Module.infix_literal hmention hlines

section

-- The text is read by evaluation, which goes deeper than the limit allows.
set_option maxRecDepth 2000

/-- A string of two lines in the body of a function. -/
theorem literals_unbroken_indented :
    ∃ program compiled, parse "def f()\x7bx = \"\"\"a\nb\"\"\"\x7d" none = .ok program ∧
      program.compile {} = .ok compiled ∧
      ⟨⟨false, true⟩, false, .literal [.text "a\nb"] true⟩ ∈ program.mentions .script ∧
      (stringLiteral [.text "a\nb"] true).toList <:+: compiled.module.toText.toList := by
  refine exists_compiled_of
    ⟨[.function "f" [] [.assign "x" none (.expr (.multiline [.text "a\nb"]))] none none]⟩
    (parse_eq_ok 12 rfl rfl) (by decide +kernel) fun program compiled hprogram _ hcompile => ?_
  have hmention : ⟨⟨false, true⟩, false, .literal [.text "a\nb"] true⟩ ∈
      program.mentions .script := by
    subst hprogram
    decide +kernel
  exact ⟨hmention, (literals_unbroken hcompile).2 _ _ _ _ hmention
    fun hprompt => absurd hprompt Bool.false_ne_true⟩

/-- The line end behind a backslash in the prompt of a function. -/
theorem literals_broken :
    ∃ program compiled, parse "def f()\x7b`a\\\nb`\x7d" none = .ok program ∧
      program.compile {} = .ok compiled ∧
      ⟨⟨false, true⟩, true, .literal [.text "a\\\nb"] false⟩ ∈ program.mentions .script ∧
      ¬(stringLiteral [.text "a\\\nb"] false).toList <:+: compiled.module.toText.toList := by
  refine exists_compiled_of
    ⟨[.function "f" [] [.expr (.prompt [.text "a\\\nb"] none)] none none]⟩
    (parse_eq_ok 12 rfl rfl) (by decide +kernel) fun program compiled hprogram _ hcompile => ?_
  have hfixed := compiled_eq (fun compiled =>
    (compiled.module.graph.isNone, compiled.module.used,
      decide (Text.Lacks 'b' compiled.module.model.compact),
      decide (Text.Lacks 'b' compiled.module.host.compact),
      compiled.module.parts.head?.bind (·.lines.head?))) hcompile
    (a := (true, [], true, true, some "def f():")) (by subst hprogram; decide +kernel)
  simp only [Prod.mk.injEq, decide_eq_true_eq, Option.isNone_iff_eq_none] at hfixed
  obtain ⟨hgraph, hused, hmodel, hhost, hheader⟩ := hfixed
  refine ⟨?_, ?_⟩
  · subst hprogram
    decide +kernel
  · obtain ⟨result, f, hsections⟩ : ∃ result f, compiled.module.sections =
        [.statements [.define "f" [] result none [.prompt f, .expr (.prompt 1 [])]]] := by
      have hbecomes := (becomes_of_compile hcompile).1
      rw [hprogram] at hbecomes
      exact hbecomes.asking rfl
    have hpart : ['\n', 'b'] <:+: (stringLiteral [.text "a\\\nb"] false).toList := by
      decide +kernel
    have hlacks : Text.Lacks 'b' compiled.module.toText := by
      refine Target.Module.lacks_toText_define hgraph hused hmodel hhost hsections ?_
      rw [Target.Module.parts, hsections] at hheader
      rw [Option.some.inj hheader]
      exact Text.lacks_ofList rfl
    exact fun hstretch => Text.not_infix_of_lacksStart hlacks (hpart.trans hstretch)

end

end Program
end AgentLang
