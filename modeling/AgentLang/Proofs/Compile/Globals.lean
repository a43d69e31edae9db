import AgentLang.Proofs.Compile.GraphLayout
import AgentLang.Proofs.Compile.Provenance
import AgentLang.Proofs.Grammar.WellFormed

/-!
# Variables that steps share

A step assigns variables of the module, so it declares them as global before it does anything else,
and gives them no types. The names that it declares are collected from the source, and the names
that it assigns are those of the emitted statements.
-/

namespace AgentLang

open List

theorem Names.mem_foldl_insert (names : List String) (set : Names) :
    x ∈ (names.foldl (fun set name => set.insert name) set).list ↔ x ∈ set.list ∨ x ∈ names := by
  induction names generalizing set with
  | nil => simp
  | cons name rest ih =>
    rw [foldl_cons, ih, Names.insert, Names.mem_place, mem_cons]
    grind

theorem Names.mem_ofList : x ∈ (Names.ofList names).list ↔ x ∈ names := by
  rw [Names.ofList, Names.mem_foldl_insert]
  simp [Names.empty]

theorem Node.mem_assignedNames {n m : Node} {name : String} (hm : m ∈ n.walk false)
    (h : m.assigned? = some name) : name ∈ n.assignedNames.list :=
  Names.mem_ofList.mpr (mem_filterMap.mpr ⟨m, hm, h⟩)

namespace Target

theorem not_isEmpty_of_isCodeLine (h : isCodeLine line) : line.isEmpty = false := by
  cases hempty : line.isEmpty with
  | false => rfl
  | true =>
    rw [String.isEmpty_iff.mp hempty] at h
    exact nomatch h

theorem block_cons (h : isCodeLine line) (lines : List String) :
    ∃ rest, block (line :: lines) = ("    " ++ line) :: rest := by
  have hline := not_isEmpty_of_isCodeLine h
  obtain ⟨kept, hkept⟩ : ∃ kept, trimEmpty (line :: lines) = line :: kept := by
    refine ⟨(lines.reverse.dropWhile String.isEmpty).reverse, ?_⟩
    simp [trimEmpty, hline, dropWhile_append]
  have hfill : fillBody (line :: kept) = line :: kept :=
    if_pos (any_eq_true.mpr ⟨line, mem_cons_self, h⟩)
  refine ⟨indent kept, ?_⟩
  rw [block, hkept, hfill, indent, map_cons, indentLine, hline]
  rfl

theorem isCodeLine_global (names : String) : isCodeLine ("global " ++ names) := by
  unfold isCodeLine
  rw [String.toList_append]
  rfl

/-- A step that assigns variables declares them as global on the first line of its body. -/
theorem step_toText_global (temp : Temp) (h : assigned.list ≠ []) (stmts : List Stmt) :
    ∃ rest, (Section.step temp assigned stmts).toText = Text.joinLines (nodeHeader temp.toText ++
      ("    " ++ ("global " ++ commaSeparated assigned.list)) :: rest) := by
  have hline : globalLine assigned = ["global " ++ commaSeparated assigned.list] :=
    if_neg (by simpa using h)
  obtain ⟨rest, hrest⟩ := block_cons (isCodeLine_global (commaSeparated assigned.list))
    (Stmt.listLines stmts)
  refine ⟨rest, ?_⟩
  rw [Section.toText, hline, singleton_append, hrest]

end Target

namespace Compile

open Build
open Target (Code Section Stmt Temp)

variable {setting : Setting} {declared : Declared} {scope : Scope} {n : Node} {stmt : Stmt}

/-! ### Code and its expression -/

/-- What code shows of the expression that it comes from. -/
def Reflects (setting : Setting) (e : Expr) : Code → Prop
  | .name ident => e = .name ident
  | .binary op left _ => ∃ first second, e = .binary op first second ∧
      ∃ s s', expr setting first s = (.ok left, s')
  | .parameter .. => False
  | _ => True

theorem gives_reflects (e : Expr) : Gives scope (expr setting e) (Reflects setting e) := by
  cases e with
  | number | string | multiline | boolean => exact gives_pure trivial
  | name ident => exact gives_pure rfl
  | prompt segments config =>
    refine gives_after keeps_nextIndex fun _ => gives_after moves_responseSchema fun _ => ?_
    refine gives_after (keeps_configEntries config) fun _ => gives_after keeps_takeTools fun _ => ?_
    exact gives_after (keeps_hoist _) fun _ => gives_pure trivial
  | access base chain =>
    exact gives_after (keeps_expr base) fun _ => gives_after (keeps_links chain) fun _ =>
      gives_pure trivial
  | array items => exact gives_after (keeps_exprs items) fun _ => gives_pure trivial
  | object entries => exact gives_after (keeps_exprEntries entries) fun _ => gives_pure trivial
  | call function arguments =>
    refine gives_after (keeps_exprs arguments) fun codes => ?_
    unfold callCode
    split
    · exact gives_pure trivial
    · exact gives_after (moves_resolveFunction keeps_useBuiltin function) fun _ => gives_pure trivial
  | binary op left right =>
    refine (gives_run _).bind (keeps_expr left) ?_
    rintro code ⟨s, s', -, hcode⟩
    exact gives_after (keeps_expr right) fun _ => gives_pure ⟨left, right, rfl, s, s', hcode⟩

theorem expr_reflects (h : expr setting e s = (.ok code, s')) : Reflects setting e code :=
  gives_reflects e s code s' rfl h

/-- Operands are no operations themselves, so code updates what its expression updates. -/
theorem expr_updated (h : expr setting e s = (.ok code, s')) (hform : e.WellFormed)
    (hname : code.updated? = some name) : Node.assigned? (.expr e) = some name := by
  have he := expr_reflects h
  cases code with
  | binary op left right =>
    obtain ⟨first, second, rfl, u, u', hleft⟩ := he
    have hfirst := expr_reflects hleft
    cases left with
    | name ident =>
      obtain rfl := hfirst
      exact hname
    | binary op' =>
      obtain ⟨_, _, rfl, -⟩ := hfirst
      cases hform with
      | binary _ leftKind =>
        exact absurd leftKind (show "binOpExpression" ∉ Decode.operandKinds by decide)
    | _ => exact nomatch hname
  | _ => exact nomatch hname

/-! ### Statements and their nodes -/

theorem bare_of_isReturn (h : stmt.isReturn) : stmt.assigned? = none ∧ stmt.annotates = false := by
  cases stmt with
  | ret | retState | retData | retHeld | retCall | goTo => exact ⟨rfl, rfl⟩
  | _ => exact nomatch h

theorem bindingName?_eq_some (h : Target.bindingName? binding = some name) : binding = some name :=
  (Option.filter_eq_some_iff.mp h).1

theorem Stems.assigned (h : Stems declared scope n stmt) (hform : n.WellFormed)
    (hname : stmt.assigned? = some name) : n.assigned? = some name := by
  cases h with
  | plain _ hplain => exact nomatch (Stmt.isPlain_iff.mp hplain).1.symm.trans hname
  | value hcode =>
    cases hform with
    | expr content => exact expr_updated hcode content hname
  | parameter => exact nomatch hform
  | assign => exact hname
  | thread | timed => exact bindingName?_eq_some hname
  | annotate => exact nomatch hname
  | leave _ hreturn => exact nomatch (bare_of_isReturn hreturn).1.symm.trans hname
  | define | defineNode => exact nomatch hname

theorem Stems.not_annotates (h : Stems declared .step n stmt) (hform : n.WellFormed) :
    stmt.annotates = false := by
  cases h with
  | plain _ hplain => exact (Stmt.isPlain_iff.mp hplain).2.1
  | @value _ code _ _ hcode =>
    have hreflects := expr_reflects hcode
    cases code with
    | parameter => exact nomatch hreflects
    | _ => rfl
  | parameter => exact nomatch hform
  | @assign _ _ _ typeCode _ hallowed =>
    cases typeCode with
    | none => rfl
    | some => exact absurd rfl (hallowed rfl)
  | thread | timed => rfl
  | annotate _ _ _ hallowed => exact absurd rfl hallowed
  | leave _ hreturn => exact (bare_of_isReturn hreturn).2
  | define | defineNode => rfl

/-! ### Steps -/

/-- What a step assigns it declares as global on its first line, and it gives no variable a type. -/
structure SharesNames (temp : Temp) (assigned : Names) (stmts : List Stmt) : Prop where
  globals : ∀ stmt ∈ Stmt.listOwn stmts, ∀ name, stmt.assigned? = some name →
    name ∈ assigned.list ∧
      ∃ rest, (Section.step temp assigned stmts).toText =
        Text.joinLines (Target.nodeHeader temp.toText ++
          ("    " ++ ("global " ++ Target.commaSeparated assigned.list)) :: rest)
  untyped : ∀ stmt ∈ Stmt.listOwn stmts, stmt.annotates = false

theorem StepOf.sharesNames {temp : Temp} {assigned : Names} {stmts : List Stmt}
    (h : StepOf declared n (.step temp assigned stmts)) (hform : n.WellFormed) :
    SharesNames temp assigned stmts := by
  obtain ⟨_, _, s, s', hscope, hbody, heq⟩ := h
  cases heq
  have hsourced := gives_stepBody n s stmts s' hscope hbody
  refine ⟨fun stmt hstmt name hname => ?_, fun stmt hstmt => ?_⟩
  · obtain ⟨m, hm, hstems⟩ := hsourced stmt hstmt
    have hmem := Node.mem_assignedNames hm
      (hstems.assigned (Node.wellFormed_walk n hform m hm) hname)
    exact ⟨hmem, Target.step_toText_global temp (ne_nil_of_mem hmem) stmts⟩
  · obtain ⟨m, hm, hstems⟩ := hsourced stmt hstmt
    exact hstems.not_annotates (Node.wellFormed_walk n hform m hm)

end Compile

namespace Program

open Compile
open Target (Section Stmt)

/-- In a parsed program, every statement of the top level that does something becomes a step, and
every step shares the variables that it assigns. -/
theorem steps_share_names {source : String} {file : Option Path} {program : Program}
    {options : CompileOptions} {compiled : Compiled} (hparse : parse source file = .ok program)
    (hbackend : options.backend = .graph) (h : program.compile options = .ok compiled) :
    (∀ n ∈ program.nodes, n.isStep → ∃ temp stmts,
      Section.step temp n.assignedNames stmts ∈ compiled.module.sections) ∧
    ∀ temp assigned stmts, Section.step temp assigned stmts ∈ compiled.module.sections →
      SharesNames temp assigned stmts := by
  have hlaid := laidOut_of_compile hbackend h
  have hform : program.WellFormed := makes_parse Grammar.makes_program hparse
  refine ⟨fun n hn hstep => ?_, fun temp assigned stmts hpart => ?_⟩
  · obtain ⟨_, hpart, temp, stmts, _, _, -, -, rfl⟩ := hlaid.exists_step hn hstep
    exact ⟨temp, stmts, hpart⟩
  · obtain ⟨n, hn, hof⟩ := hlaid.stepOf hpart rfl
    exact hof.sharesNames (hform n hn)

section

-- The text is read by evaluation, which goes deeper than the limit allows.
set_option maxRecDepth 2000

/-- Names of all depths are declared, and a name with a type is assigned without it. -/
theorem steps_share_names_nested :
    ∃ program compiled temp assigned stmts, parse "if(a)\x7bx:5=1;y+=z\x7d" none = .ok program ∧
      program.compile { backend := .graph } = .ok compiled ∧
      Section.step temp assigned stmts ∈ compiled.module.sections ∧
      SharesNames temp assigned stmts ∧
      (Stmt.listOwn stmts).filterMap Stmt.assigned? = ["x", "y"] ∧
      (Section.step temp assigned stmts).toText =
        Text.joinLines ["@graph.node(\"_step_1\")", "def _step_1(state):", "    global x, y",
          "    if a:", "        x = 1", "        y += z", "    return state"] := by
  obtain ⟨program, hprogram, hparse⟩ : ∃ program, program = Program.mk [.ifElse (.name "a")
      [.assign "x" (some (.number "5")) (.expr (.number "1")),
        .expr (.binary .addAssign (.name "y") (.name "z"))] none] ∧
      parse "if(a)\x7bx:5=1;y+=z\x7d" none = .ok program := ⟨_, rfl, parse_eq_ok 12 rfl rfl⟩
  obtain ⟨compiled, hcompile, hmodule⟩ := exists_compiled { backend := .graph }
    (fun compiled => compiled.module.sections.filterMap fun part => part.stepBody?.map fun stmts =>
      ((Stmt.listOwn stmts).filterMap Stmt.assigned?, part.toText))
    (show (program.compile { backend := .graph }).map _ = .ok [(["x", "y"],
        Text.joinLines ["@graph.node(\"_step_1\")", "def _step_1(state):", "    global x, y",
          "    if a:", "        x = 1", "        y += z", "    return state"])] by
      subst hprogram
      decide +kernel)
  obtain ⟨part, hpart, hshown⟩ := mem_filterMap.mp (hmodule ▸ mem_cons_self)
  cases part with
  | step temp assigned stmts =>
    simp only [Section.stepBody?, Option.map_some, Option.some.injEq, Prod.mk.injEq] at hshown
    exact ⟨program, compiled, temp, assigned, stmts, hparse, hcompile, hpart,
      (steps_share_names hparse rfl hcompile).2 _ _ _ hpart, hshown⟩
  | _ => exact absurd hshown (Option.some_ne_none _).symm

end

end Program
end AgentLang
