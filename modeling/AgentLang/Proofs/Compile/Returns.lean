import AgentLang.Proofs.Compile.GraphLayout
import AgentLang.Proofs.Compile.Provenance

/-!
# What the functions of a graph return

The functions that are registered as nodes of a graph return states, wherever in the program they
are defined. What follows the last return is blank or a comment.
-/

namespace AgentLang

open List

namespace Compile

open Build
open State (Keeps)
open Target (Code Section Stmt Temp)

variable {declared : Declared} {scope : Scope} {n : Node} {nodes : List Node} {stmt : Stmt}
  {stmts : List Stmt} {s s' : State}

/-! ### Returns -/

theorem Stems.returnsState (h : Stems declared scope n stmt) (hscope : scope.inGraph)
    (hreturn : stmt.isReturn) : stmt.ReturnsState := by
  cases h with
  | plain _ hplain => exact nomatch (Stmt.isPlain_iff.mp hplain).2.2.1.symm.trans hreturn
  | leave _ _ hstate => exact hstate hscope
  | _ => exact nomatch hreturn

/-- The statement comes from some node in some scope. -/
def Stemmed (declared : Declared) (stmt : Stmt) : Prop :=
  ∃ scope n, Stems declared scope n stmt

theorem Sourced.stemmed (h : Sourced declared scope nodes stmts) :
    ∀ stmt ∈ stmts, Stemmed declared stmt := by
  intro stmt hstmt
  obtain ⟨n, -, hstems⟩ := h stmt hstmt
  exact ⟨scope, n, hstems⟩

/-! ### Definitions of all depths -/

theorem Stems.functionBody (h : Stems declared scope n (.define name shown result doc stmts)) :
    ∀ stmt ∈ Stmt.listOwn stmts, ∃ m, Stems declared .function m stmt := by
  cases h with
  | plain _ hplain => exact nomatch hplain
  | leave _ hreturn => exact nomatch hreturn
  | define _ _ hscope hbody =>
    intro stmt hstmt
    obtain ⟨m, -, hstems⟩ := gives_body false _ _ _ _ hscope hbody stmt hstmt
    exact ⟨m, hstems⟩

theorem Stems.nodeBody (h : Stems declared scope n (.defineNode name stmts)) :
    ∀ stmt ∈ Stmt.listOwn stmts, ∃ m, Stems declared .node m stmt := by
  cases h with
  | plain _ hplain => exact nomatch hplain
  | leave _ hreturn => exact nomatch hreturn
  | @defineNode _ parameters inner returns visibility stmts s s' hscope hbody =>
    intro stmt hstmt
    rw [Stmt.listOwn_append, Stmt.listOwn_append, mem_append, mem_append] at hstmt
    rcases hstmt with (hstmt | hstmt) | hstmt
    · split at hstmt
      · exact nomatch hstmt
      · rw [List.mem_singleton.mp hstmt]
        exact ⟨.graphNode name parameters inner returns visibility, .plain _ rfl⟩
    · obtain ⟨m, -, hstems⟩ := gives_body false inner s stmts s' hscope hbody stmt hstmt
      exact ⟨m, hstems⟩
    · split at hstmt
      · exact nomatch hstmt
      · rw [List.mem_singleton.mp hstmt]
        exact ⟨.graphNode name parameters inner returns visibility, .leave _ rfl fun _ => .inl rfl⟩

mutual

/-- Where the statements of a function come from nodes, so do those of the definitions in it. -/
theorem stemmed_parts (stmt : Stmt) (h : ∀ own ∈ stmt.own, Stemmed declared own) :
    ∀ part ∈ stmt.parts, Stemmed declared part := by
  have hself := h stmt (Stmt.mem_own_self stmt)
  intro part hpart
  cases stmt with
  | define name shown result doc stmts =>
    have hinner := stemmed_listParts stmts
    rcases mem_cons.mp hpart with rfl | hpart
    · exact hself
    · obtain ⟨scope, n, hstems⟩ := hself
      exact hinner (fun own hown => ⟨_, hstems.functionBody own hown⟩) part hpart
  | defineNode name stmts =>
    have hinner := stemmed_listParts stmts
    rcases mem_cons.mp hpart with rfl | hpart
    · exact hself
    · obtain ⟨scope, n, hstems⟩ := hself
      exact hinner (fun own hown => ⟨_, hstems.nodeBody own hown⟩) part hpart
  | ifChain branches otherwise =>
    rcases mem_cons.mp hpart with rfl | hpart
    · exact hself
    · rcases mem_append.mp hpart with hpart | hpart
      · refine stemmed_branchParts branches (fun own hown => h own ?_) part hpart
        exact mem_cons_of_mem _ (mem_append_left _ hown)
      · refine stemmed_otherwiseParts otherwise (fun own hown => h own ?_) part hpart
        exact mem_cons_of_mem _ (mem_append_right _ hown)
  | select subject value arms otherwise =>
    rcases mem_cons.mp hpart with rfl | hpart
    · exact hself
    · rcases mem_append.mp hpart with hpart | hpart
      · refine stemmed_choiceParts arms (fun own hown => h own ?_) part hpart
        exact mem_cons_of_mem _ (mem_append_left _ hown)
      · refine stemmed_otherwiseParts otherwise (fun own hown => h own ?_) part hpart
        exact mem_cons_of_mem _ (mem_append_right _ hown)
  | loop _ stmts | thread _ _ stmts _ | timed _ stmts _ _ =>
    rcases mem_cons.mp hpart with rfl | hpart
    · exact hself
    · exact stemmed_listParts stmts (fun own hown => h own (mem_cons_of_mem _ hown)) part hpart
  | _ => exact List.mem_singleton.mp hpart ▸ hself
termination_by structural stmt

theorem stemmed_listParts (stmts : List Stmt)
    (h : ∀ own ∈ Stmt.listOwn stmts, Stemmed declared own) :
    ∀ part ∈ Stmt.listParts stmts, Stemmed declared part := by
  intro part hpart
  cases stmts with
  | nil => exact nomatch hpart
  | cons stmt rest =>
    rcases mem_append.mp hpart with hpart | hpart
    · exact stemmed_parts stmt (fun own hown => h own (mem_append_left _ hown)) part hpart
    · exact stemmed_listParts rest (fun own hown => h own (mem_append_right _ hown)) part hpart
termination_by structural stmts

theorem stemmed_branchParts (branches : List (Code × List Stmt))
    (h : ∀ own ∈ Stmt.branchOwn branches, Stemmed declared own) :
    ∀ part ∈ Stmt.branchParts branches, Stemmed declared part := by
  intro part hpart
  cases branches with
  | nil => exact nomatch hpart
  | cons branch rest =>
    obtain ⟨code, stmts⟩ := branch
    rcases mem_append.mp hpart with hpart | hpart
    · exact stemmed_listParts stmts (fun own hown => h own (mem_append_left _ hown)) part hpart
    · exact stemmed_branchParts rest (fun own hown => h own (mem_append_right _ hown)) part
        hpart
termination_by structural branches

theorem stemmed_otherwiseParts (otherwise : Option (List Stmt))
    (h : ∀ own ∈ Stmt.otherwiseOwn otherwise, Stemmed declared own) :
    ∀ part ∈ Stmt.otherwiseParts otherwise, Stemmed declared part := by
  intro part hpart
  cases otherwise with
  | none => exact nomatch hpart
  | some stmts => exact stemmed_listParts stmts h part hpart
termination_by structural otherwise

theorem stemmed_choiceParts (arms : List Target.Choice)
    (h : ∀ own ∈ Stmt.choiceOwn arms, Stemmed declared own) :
    ∀ part ∈ Stmt.choiceParts arms, Stemmed declared part := by
  intro part hpart
  cases arms with
  | nil => exact nomatch hpart
  | cons arm rest =>
    cases arm with
    | note line => exact stemmed_choiceParts rest h part hpart
    | case value stmts =>
      rcases mem_append.mp hpart with hpart | hpart
      · exact stemmed_listParts stmts (fun own hown => h own (mem_append_left _ hown)) part
          hpart
      · exact stemmed_choiceParts rest (fun own hown => h own (mem_append_right _ hown)) part
          hpart
termination_by structural arms

end

/-! ### The last statement -/

theorem endsInTransfer_cons (h : endsInTransfer (first :: rest)) :
    endsInTransfer rest ∨ endsInTransfer [first] ∧ ∀ n ∈ rest, n.isTrivia := by
  rw [endsInTransfer, ← singleton_append, filter_append] at h
  by_cases hrest : rest.filter (!·.isTrivia) = []
  · rw [hrest, append_nil] at h
    refine .inr ⟨h, fun n hn => ?_⟩
    simpa using filter_eq_nil_iff.mp hrest n hn
  · rw [List.getLast?_append_of_ne_nil _ hrest] at h
    exact .inl h

theorem isCodeLine_of_mark (h : line.toList = '#' :: rest) : Target.isCodeLine line = false := by
  unfold Target.isCodeLine
  rw [h]
  rfl

theorem stripEnd_cons (h : Text.isBlank c = false) (text : List Char) :
    Text.stripEnd (c :: text) = c :: Text.stripEnd text := by
  simp [Text.stripEnd, Text.stripStart, dropWhile_append, h]

theorem isTrivia_note (h : Target.isCodeLine line = false) : (Stmt.note line).isTrivia := by
  simp [Stmt.isTrivia, Stmt.lines, h]

theorem gives_trivia (h : n.isTrivia) :
    Gives scope (collecting (node ⟨.graph, declared⟩ n)) fun result =>
      ∀ stmt ∈ result.1 ++ result.2, stmt.isTrivia := by
  cases n with
  | newline => exact gives_pure nofun
  | comment text =>
    refine gives_pure fun stmt hstmt => ?_
    rw [List.mem_singleton.mp hstmt]
    exact isTrivia_note (isCodeLine_of_mark (String.toList_append ..))
  | blockComment text =>
    refine gives_pure fun stmt hstmt => ?_
    obtain ⟨line, hline, rfl⟩ := mem_map.mp hstmt
    obtain ⟨chars, -, rfl⟩ := mem_map.mp hline
    have hmark := stripEnd_cons (c := '#') (by decide) (' ' :: Text.strip chars)
    exact isTrivia_note (isCodeLine_of_mark (String.toList_ofList.trans hmark))
  | _ => exact nomatch h

theorem gives_body_trivia (afterLineEnd : Bool) (h : ∀ n ∈ nodes, n.isTrivia) :
    Gives scope (body ⟨.graph, declared⟩ afterLineEnd nodes) fun stmts =>
      ∀ stmt ∈ stmts, stmt.isTrivia := by
  induction nodes generalizing afterLineEnd with
  | nil => exact gives_pure nofun
  | cons first rest ih =>
    rw [forall_mem_cons] at h
    by_cases hline : first = .newline
    · subst hline
      rw [body_newline]
      refine (ih true h.2).bind (keeps_body true rest) fun stmts hstmts => gives_pure ?_
      split
      · exact forall_mem_cons.mpr ⟨rfl, hstmts⟩
      · exact hstmts
    · rw [body_cons hline]
      refine (gives_trivia h.1).bind (keeps_collecting (keeps_node first)) ?_
      rintro ⟨hoisted, stmts⟩ hstmts
      refine (ih false h.2).bind (keeps_body false rest) fun others hothers => gives_pure ?_
      exact forall_mem_append.mpr ⟨hstmts, hothers⟩

theorem gives_transfer (hscope : scope.inGraph) (h : endsInTransfer [n]) :
    Gives scope (collecting (node ⟨.graph, declared⟩ n)) fun result =>
      Stmt.EndsInState (result.1 ++ result.2) := by
  have hlast : Gives scope (node ⟨.graph, declared⟩ n) fun stmts =>
      ∃ stmt, stmts = [stmt] ∧ stmt.ReturnsState := by
    cases n with
    | ret value =>
      refine gives_after (keeps_returned value) fun code => ?_
      refine (gives_retStmt (.ret value) code).bind (moves_retStmt code) fun stmt hstmt => ?_
      exact gives_pure ⟨stmt, rfl, hstmt.state hscope⟩
    | goto target arguments =>
      refine gives_after (keeps_exprs arguments) fun codes => ?_
      refine (gives_gotoStmt (.goto target arguments) target codes).bind
        (moves_gotoStmt target codes) fun stmt hstmt => ?_
      exact gives_pure ⟨stmt, rfl, hstmt.state hscope⟩
    | _ => exact nomatch h
  refine (hlast.collecting (hoistsPrompts_node n)).mono ?_
  rintro ⟨hoisted, _⟩ ⟨-, stmt, rfl, hstate⟩
  exact Stmt.endsInState_concat hstate hoisted

theorem gives_body_endsInState (hscope : scope.inGraph) (afterLineEnd : Bool)
    (h : endsInTransfer nodes) :
    Gives scope (body ⟨.graph, declared⟩ afterLineEnd nodes) Stmt.EndsInState := by
  induction nodes generalizing afterLineEnd with
  | nil => exact nomatch h
  | cons first rest ih =>
    by_cases hline : first = .newline
    · subst hline
      rw [body_newline]
      refine (ih true h).bind (keeps_body true rest) fun stmts hstmts => gives_pure ?_
      split
      · exact hstmts.prepend [.blank]
      · exact hstmts
    · rw [body_cons hline]
      have hkeeps : Moves Keeps (collecting (node ⟨.graph, declared⟩ first)) :=
        keeps_collecting (keeps_node first)
      rcases endsInTransfer_cons h with hrest | ⟨hfirst, hrest⟩
      · refine gives_after hkeeps fun result => ?_
        refine (ih false hrest).bind (keeps_body false rest) fun others hothers => ?_
        exact gives_pure (hothers.prepend _)
      · refine (gives_transfer hscope hfirst).bind hkeeps ?_
        rintro ⟨hoisted, stmts⟩ hstmts
        refine (gives_body_trivia false hrest).bind (keeps_body false rest) fun others hothers => ?_
        exact gives_pure (hstmts.append hothers)

/-! ### Functions of the graph -/

theorem Stems.alwaysReturnsState (h : Stems declared scope n (.defineNode name stmts)) :
    Stmt.AlwaysReturnsState stmts := by
  refine ⟨fun stmt hstmt hreturn => ?_, ?_⟩
  · obtain ⟨m, hstems⟩ := h.nodeBody stmt hstmt
    exact hstems.returnsState rfl hreturn
  · cases h with
    | plain _ hplain => exact nomatch hplain
    | leave _ hreturn => exact nomatch hreturn
    | @defineNode _ parameters inner _ _ stmts s s' hscope hbody =>
      by_cases htransfer : endsInTransfer inner
      · rw [if_pos htransfer, append_nil]
        exact (gives_body_endsInState rfl false htransfer s stmts s' hscope hbody).prepend _
      · rw [if_neg htransfer]
        exact Stmt.endsInState_concat (.inl rfl) _

theorem gives_stepBody_endsInState (n : Node) :
    Gives .step (stepBody ⟨.graph, declared⟩ n) Stmt.EndsInState := by
  unfold stepBody
  cases plainValue? n with
  | some value =>
    refine gives_after (keeps_fresh .result) fun holder => ?_
    refine gives_after (keeps_collecting (keeps_expr value)) fun result => gives_pure ?_
    have hlast := Stmt.endsInState_concat (Stmt.returnsState_retHeld holder) [.hold holder result.2]
    exact hlast.prepend result.1
  | none =>
    dsimp only
    split
    next htransfer =>
      have hstatement : Gives .step (statement ⟨.graph, declared⟩ n) Stmt.EndsInState :=
        (gives_transfer rfl htransfer).bind (keeps_collecting (keeps_node n)) fun _ hends =>
          gives_pure hends
      refine hstatement.bind (keeps_statement n) fun stmts hends => gives_pure ?_
      rwa [append_nil]
    next =>
      refine gives_after (keeps_statement n) fun stmts => gives_pure ?_
      exact Stmt.endsInState_concat (.inl rfl) stmts

theorem StepOf.alwaysReturnsState (h : StepOf declared n (.step temp assigned stmts)) :
    Stmt.AlwaysReturnsState stmts := by
  obtain ⟨_, _, s, s', hscope, hbody, heq⟩ := h
  cases heq
  refine ⟨fun stmt hstmt hreturn => ?_, gives_stepBody_endsInState n s stmts s' hscope hbody⟩
  obtain ⟨m, -, hstems⟩ := gives_stepBody n s stmts s' hscope hbody stmt hstmt
  exact hstems.returnsState rfl hreturn

/-- All statements of a module come from nodes of its program. -/
theorem LaidOut.stemmed {sections : List Section} (h : LaidOut declared s nodes sections s') :
    ∀ part ∈ sections.flatMap Section.parts, Stemmed declared part := by
  intro part hpart
  obtain ⟨owner, howner, hpart⟩ := mem_flatMap.mp hpart
  obtain ⟨n, -, u, group, u', hgroup, howner⟩ := h.contributes howner
  cases hgroup with
  | nothing => exact nomatch howner
  | @outside stmts _ middle _ _ hstmts hothers _ =>
    rcases mem_cons.mp howner with rfl | howner
    · have hsourced := gives_statement n u stmts middle rfl hstmts
      exact stemmed_listParts stmts hsourced.stemmed part hpart
    · rw [(hothers owner howner).2] at hpart
      exact nomatch hpart
  | step _ hsection =>
    obtain rfl := List.mem_singleton.mp howner
    obtain ⟨⟨_, stmts, v, v', hscope, hbody, rfl⟩, -, -⟩ := stepSection_ok hsection
    have hsourced := gives_stepBody n v stmts v' hscope hbody
    exact stemmed_listParts stmts hsourced.stemmed part hpart

end Compile

namespace Program

open Compile
open Target (Section Stmt)

/-- Whatever is a function of the graph, for a graph node at any depth or for a step, returns a
state in all its returns and at its end. -/
theorem functions_return_state {program : Program} {options : CompileOptions} {compiled : Compiled}
    (hbackend : options.backend = .graph) (h : program.compile options = .ok compiled) :
    (∀ name stmts, Stmt.defineNode name stmts ∈ compiled.module.parts →
      Stmt.AlwaysReturnsState stmts) ∧
    ∀ temp assigned stmts, Section.step temp assigned stmts ∈ compiled.module.sections →
      Stmt.AlwaysReturnsState stmts := by
  have hlaid := laidOut_of_compile hbackend h
  refine ⟨fun name stmts hpart => ?_, fun temp assigned stmts hpart => ?_⟩
  · obtain ⟨scope, n, hstems⟩ := hlaid.stemmed _ hpart
    exact hstems.alwaysReturnsState
  · obtain ⟨n, -, hof⟩ := hlaid.stepOf hpart rfl
    exact hof.alwaysReturnsState

/-- A node with a return inside a loop and a comment at its end, and a node inside a step. -/
theorem functions_return_state_nested :
    ∃ program compiled outer inner temp assigned stmts, program = Program.mk [
        .graphNode "a" [⟨"p", none⟩] [.loop (.name "p") [.ret (some (.number "1"))], .goto "a" [],
          .newline, .comment "c"] none none,
        .ifElse (.name "x") [.graphNode "b" [] [.ret none] none none] none] ∧
      program.compile { backend := .graph } = .ok compiled ∧
      Stmt.defineNode "a" outer ∈ compiled.module.parts ∧ Stmt.AlwaysReturnsState outer ∧
      Stmt.listLines outer = ["[p] = _node_args(state, 1)", "while p:",
        "    return \x7b**state, \"data\": 1\x7d",
        "return graph.go_to(\"a\", \x7b**state, \"data\": []\x7d)", "#c"] ∧
      Stmt.defineNode "b" inner ∈ compiled.module.parts ∧ Stmt.AlwaysReturnsState inner ∧
      Section.step temp assigned stmts ∈ compiled.module.sections ∧
      Stmt.AlwaysReturnsState stmts ∧
      Stmt.listLines stmts = ["if x:", "    @graph.node(\"b\")", "    def b(state):",
        "        return \x7b**state, \"data\": None\x7d", "return state"] := by
  obtain ⟨program, hprogram⟩ : ∃ program, program = Program.mk [
      .graphNode "a" [⟨"p", none⟩] [.loop (.name "p") [.ret (some (.number "1"))], .goto "a" [],
        .newline, .comment "c"] none none,
      .ifElse (.name "x") [.graphNode "b" [] [.ret none] none none] none] := ⟨_, rfl⟩
  obtain ⟨compiled, hcompile, hmodule⟩ := exists_compiled { backend := .graph }
    (fun compiled => (compiled.module.parts.filterMap fun
      | .defineNode name stmts => some (name, Stmt.listLines stmts)
      | _ => none, compiled.module.sections.filterMap fun part =>
        part.stepBody?.map Stmt.listLines))
    (show (program.compile { backend := .graph }).map _ = .ok ([
        ("a", ["[p] = _node_args(state, 1)", "while p:",
          "    return \x7b**state, \"data\": 1\x7d",
          "return graph.go_to(\"a\", \x7b**state, \"data\": []\x7d)", "#c"]),
        ("b", ["return \x7b**state, \"data\": None\x7d"])],
        [["if x:", "    @graph.node(\"b\")", "    def b(state):",
          "        return \x7b**state, \"data\": None\x7d", "return state"]]) by
      subst hprogram
      decide +kernel)
  obtain ⟨hparts, hsections⟩ := Prod.mk.injEq .. ▸ hmodule
  have hnode {name lines}
      (hmem : (name, lines) ∈ compiled.module.parts.filterMap fun
        | .defineNode name stmts => some (name, Stmt.listLines stmts)
        | _ => none) :
      ∃ body, Stmt.defineNode name body ∈ compiled.module.parts ∧ Stmt.listLines body = lines := by
    obtain ⟨part, hpart, heq⟩ := mem_filterMap.mp hmem
    cases part <;> simp only [Option.some.injEq, Prod.mk.injEq, reduceCtorEq] at heq
    exact ⟨_, heq.1 ▸ hpart, heq.2⟩
  obtain ⟨outer, houter, hlines⟩ := hnode (hparts ▸ mem_cons_self)
  obtain ⟨inner, hinner, -⟩ := hnode (hparts ▸ mem_cons_of_mem _ mem_cons_self)
  obtain ⟨part, hstep, heq⟩ := mem_filterMap.mp (hsections ▸ mem_cons_self)
  cases part <;> simp only [Section.stepBody?, Option.map_some, Option.map_none,
    Option.some.injEq, reduceCtorEq] at heq
  have hreturns := functions_return_state rfl hcompile
  exact ⟨program, compiled, outer, inner, _, _, _, hprogram, hcompile, houter,
    hreturns.1 _ _ houter, hlines, hinner, hreturns.1 _ _ hinner, hstep,
    hreturns.2 _ _ _ hstep, heq⟩

end Program
end AgentLang
