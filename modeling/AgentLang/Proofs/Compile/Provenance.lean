import AgentLang.Proofs.Compile.Account
import AgentLang.Proofs.Syntax.Walk
import AgentLang.Proofs.Target.Own

/-!
# Where statements come from

Around a graph, every statement of a function comes from a node of the source that belongs to the
same function. What it can be is decided by that node and by the scope.
-/

namespace AgentLang

open List

/-- Whether a function of the scope is a node of the graph. -/
def Scope.inGraph : Scope → Bool
  | .module => false
  | .function => false
  | .node => true
  | .step => true

namespace Compile

open Target (Choice Code PromptFunction Stmt)
open State (Keeps)

namespace Build

variable {α β : Type} {scope : Scope} {step : Build α} {next : α → Build β} {P : α → Prop}
  {Q : β → Prop}

/-- Taken in the scope, the step has no result but such as are given. -/
def Gives (scope : Scope) (step : Build α) (P : α → Prop) : Prop :=
  ∀ s a s', s.context.scope = scope → step s = (.ok a, s') → P a

theorem Gives.mono (h : Gives scope step P) (hP : ∀ a, P a → R a) : Gives scope step R :=
  fun s a s' hscope heq => hP a (h s a s' hscope heq)

theorem Gives.bind (h : Gives scope step P) (hkeeps : Moves Keeps step)
    (hnext : ∀ a, P a → Gives scope (next a) Q) : Gives scope (step >>= next) Q := by
  intro s b s' hscope heq
  obtain ⟨a, middle, hstep, hrest⟩ := bind_ok heq
  have hmiddle := (hkeeps.of_eq hstep).scope.trans hscope
  exact hnext a (h s a middle hscope hstep) middle b s' hmiddle hrest

theorem gives_after (hkeeps : Moves Keeps step) (hnext : ∀ a, Gives scope (next a) Q) :
    Gives scope (step >>= next) Q := by
  have hany : Gives scope step fun _ => True := fun _ _ _ _ _ => trivial
  exact hany.bind hkeeps fun a _ => hnext a

theorem gives_pure (h : P a) : Gives scope (pure a) P := by
  intro s b s' _ heq
  cases heq
  exact h

theorem Fails.gives (h : Fails step) : Gives scope step P :=
  fun s a s' _ heq => absurd heq (h s a s')

theorem gives_scope : Gives scope Build.scope (· = scope) := by
  intro s a s' hscope heq
  cases heq
  exact hscope

theorem gives_run (step : Build α) :
    Gives scope step fun a => ∃ s s', s.context.scope = scope ∧ step s = (.ok a, s') :=
  fun s _ s' hscope heq => ⟨s, s', hscope, heq⟩

theorem gives_inDefinition (inner : Scope) (returns : Option Ty) (step : Build α) :
    Gives scope (inDefinition inner returns step) fun a =>
      ∃ s s', s.context.scope = inner ∧ step s = (.ok a, s') := by
  intro s a s' _ heq
  rw [inDefinition] at heq
  obtain ⟨_, hscope, -⟩ := between_ok heq
  obtain ⟨after, hstep, -⟩ := between_ok hscope
  exact ⟨_, after, rfl, hstep⟩

/-- All that the step puts ahead of the current statement are prompt functions. -/
def HoistsPrompts (step : Build α) : Prop :=
  ∀ s a s', step s = (.ok a, s') →
    ∃ functions, Adds functions s.context.hoisted s'.context.hoisted

theorem Asks.hoistsPrompts (h : Asks step texts P) : HoistsPrompts step := by
  intro s a s' heq
  obtain ⟨-, functions, -, hasks⟩ := h s a s' heq
  exact ⟨functions, hasks.hoisted⟩

theorem Gives.collecting (h : Gives scope step P) (hprompts : HoistsPrompts step) :
    Gives scope (collecting step) fun result =>
      (∃ functions : List PromptFunction, result.1 = functions.map .prompt) ∧ P result.2 := by
  rintro s ⟨hoisted, a⟩ s' hscope heq
  obtain ⟨after, hstep, hafter⟩ := collecting_ok heq
  obtain ⟨functions, hadds⟩ := hprompts _ a after hstep
  have ha : P a := h { s with context := s.context.pushHoist } a after hscope hstep
  refine ⟨?_, ha⟩
  rcases hafter with ⟨hframes, -⟩ | ⟨-, hnone, -⟩
  · have hopened := hframes.symm.trans hadds.eq_of_opened
    exact ⟨functions, (List.cons.inj hopened).1⟩
  · exact ⟨[], hnone⟩

end Build

open Build

variable {declared : Declared} {scope : Scope}

theorem hoistsPrompts_node (n : Node) : HoistsPrompts (node setting n) := by
  intro s stmts s' heq
  rw [← run_recordNode] at heq
  obtain ⟨functions, _, -, haccount⟩ := emits_recordNode n s stmts s' heq
  exact ⟨functions, haccount.hoisted⟩

/-! ### Statements and their nodes -/

/-- What a statement in a scope of a function can be, and the node that it comes from. -/
inductive Stems (declared : Declared) (scope : Scope) : Node → Stmt → Prop where
  | plain (n : Node) {stmt : Stmt} (h : stmt.isPlain) : Stems declared scope n stmt
  | value {e : Expr} {code : Code} {s s' : State}
      (h : expr ⟨.graph, declared⟩ e s = (.ok code, s')) :
      Stems declared scope (.expr e) (.expr code)
  | parameter (p : Parameter) (code : Code) : Stems declared scope (.parameter p) (.expr code)
  | assign (name : String) (hint : Option Ty) (value : Node) {typeCode : Option String}
      (code : Code) (h : typeCode.isSome → scope ≠ .step) :
      Stems declared scope (.assign name hint value) (.assign name typeCode code)
  | thread (name : String) (hint : Option Ty) (value : Node) (saved : Target.Temp)
      (kind : ThreadKind) (stmts : List Stmt) :
      Stems declared scope (.assign name hint value) (.thread saved kind stmts (some name))
  | timed (name : String) (hint : Option Ty) (value : Node) (index : Nat) (stmts : List Stmt)
      (prints : Bool) :
      Stems declared scope (.assign name hint value) (.timed index stmts prints (some name))
  | annotate (name : String) (type : Ty) (code : String) (h : scope ≠ .step) :
      Stems declared scope (.hint name type) (.annotate name code)
  | leave (n : Node) {stmt : Stmt} (hreturn : stmt.isReturn)
      (h : scope.inGraph → stmt.ReturnsState) : Stems declared scope n stmt
  | define {name : String} {parameters : List Parameter} {inner : List Node} {returns : Option Ty}
      {doc : Option String} {stmts : List Stmt} {s s' : State}
      (shown : List (String × Option String)) (result : Option String)
      (hscope : s.context.scope = .function)
      (h : body ⟨.graph, declared⟩ false inner s = (.ok stmts, s')) :
      Stems declared scope (.function name parameters inner returns doc)
        (.define name shown result doc stmts)
  | defineNode {name : String} {parameters : List Parameter} {inner : List Node}
      {returns : Option Ty} {visibility : Option Visibility} {stmts : List Stmt} {s s' : State}
      (hscope : s.context.scope = .node)
      (h : body ⟨.graph, declared⟩ false inner s = (.ok stmts, s')) :
      Stems declared scope (.graphNode name parameters inner returns visibility)
        (.defineNode name
          ((if parameters.isEmpty then [] else [.unpack (parameters.map (·.name))]) ++ stmts ++
            if endsInTransfer inner then [] else [.retState]))

/-- Each of the statements comes from one of the nodes. -/
def Sourced (declared : Declared) (scope : Scope) (nodes : List Node) (stmts : List Stmt) : Prop :=
  ∀ stmt ∈ stmts, ∃ n ∈ nodes, Stems declared scope n stmt

namespace Sourced

variable {nodes others : List Node} {n : Node} {stmt : Stmt} {stmts more : List Stmt}

theorem nil : Sourced declared scope nodes [] := nofun

theorem mono (h : Sourced declared scope nodes stmts) (hnodes : nodes ⊆ others) :
    Sourced declared scope others stmts := by
  intro stmt hstmt
  obtain ⟨n, hn, hstems⟩ := h stmt hstmt
  exact ⟨n, hnodes hn, hstems⟩

theorem append (h : Sourced declared scope nodes stmts) (h' : Sourced declared scope others more) :
    Sourced declared scope (nodes ++ others) (stmts ++ more) := by
  intro stmt hstmt
  rcases mem_append.mp hstmt with hstmt | hstmt
  · exact h.mono (subset_append_left ..) stmt hstmt
  · exact h'.mono (subset_append_right ..) stmt hstmt

theorem cons (hstmt : Stems declared scope n stmt) (h : Sourced declared scope nodes stmts) :
    Sourced declared scope (n :: nodes) (stmt :: stmts) := by
  intro part hpart
  rcases mem_cons.mp hpart with rfl | hpart
  · exact ⟨n, mem_cons_self, hstmt⟩
  · exact h.mono (subset_cons_self ..) part hpart

theorem around (hown : stmt.own = stmt :: stmts) (hstmt : Stems declared scope n stmt)
    (h : Sourced declared scope (n.walk false) stmts) :
    Sourced declared scope (n.walk false) (Stmt.listOwn [stmt]) := by
  rw [Stmt.listOwn_singleton, hown]
  refine (h.cons hstmt).mono (cons_subset.mpr ⟨?_, List.Subset.refl _⟩)
  exact Node.mem_walk_self false n

theorem leaf (hown : stmt.own = [stmt]) (hstmt : Stems declared scope n stmt) :
    Sourced declared scope (n.walk false) (Stmt.listOwn [stmt]) :=
  around hown hstmt nil

theorem plain (hn : n ∈ nodes) (h : ∀ stmt ∈ stmts, stmt.isPlain) :
    Sourced declared scope nodes stmts :=
  fun stmt hstmt => ⟨n, hn, .plain n (h stmt hstmt)⟩

theorem join (h : Sourced declared scope nodes stmts) (h' : Sourced declared scope nodes more) :
    Sourced declared scope nodes (stmts ++ more) :=
  (h.append h').mono (append_subset.mpr ⟨List.Subset.refl _, List.Subset.refl _⟩)

theorem hoisted (h : Sourced declared scope (n.walk false) (Stmt.listOwn stmts))
    (hprompts : ∃ functions : List PromptFunction, more = functions.map .prompt) :
    Sourced declared scope (n.walk false) (Stmt.listOwn (more ++ stmts)) := by
  obtain ⟨functions, rfl⟩ := hprompts
  have hplain : ∀ stmt ∈ functions.map Stmt.prompt, stmt.isPlain := by
    intro stmt hstmt
    obtain ⟨f, -, rfl⟩ := mem_map.mp hstmt
    rfl
  rw [Stmt.listOwn_append, Stmt.listOwn_prompts]
  exact (plain (Node.mem_walk_self false n) hplain).join h

end Sourced

/-! ### Parts of statements -/

theorem gives_annotationsAllowed :
    Gives scope (annotationsAllowed ⟨.graph, declared⟩) (· = !(scope == .step)) := by
  refine gives_scope.bind moves_scope ?_
  rintro _ rfl
  exact gives_pure rfl

theorem gives_allowedTypeCode (hint : Option Ty) :
    Gives scope (allowedTypeCode ⟨.graph, declared⟩ hint) fun typeCode =>
      typeCode.isSome → scope ≠ .step := by
  cases hint with
  | none => exact gives_pure nofun
  | some type =>
    refine gives_annotationsAllowed.bind moves_annotationsAllowed ?_
    rintro _ rfl
    split
    next hallowed =>
      intro s typeCode s' _ _ _ hstep
      rw [hstep] at hallowed
      exact nomatch hallowed
    next => exact gives_pure nofun

/-- A statement that leaves a scope, without others inside it. -/
structure Leaves (declared : Declared) (scope : Scope) (n : Node) (stmt : Stmt) : Prop where
  own : stmt.own = [stmt]
  stems : Stems declared scope n stmt
  state : scope.inGraph → stmt.ReturnsState

theorem gives_retStmt (n : Node) (value : Option Code) :
    Gives scope (retStmt ⟨.graph, declared⟩ value) (Leaves declared scope n) := by
  have hstate := Stmt.returnsState_retData value
  refine gives_scope.bind moves_scope ?_
  rintro current rfl
  cases current with
  | module => exact gives_pure ⟨rfl, .plain n rfl, nofun⟩
  | function => exact gives_pure ⟨rfl, .leave n rfl nofun, nofun⟩
  | node | step => exact gives_pure ⟨rfl, .leave n rfl fun _ => hstate, fun _ => hstate⟩

theorem gives_gotoStmt (n : Node) (target : String) (arguments : List Code) :
    Gives scope (gotoStmt ⟨.graph, declared⟩ target arguments) (Leaves declared scope n) := by
  have hleaves (handOn : Bool) : Leaves declared scope n (.goTo handOn target arguments) :=
    have hstate := Stmt.returnsState_goTo handOn target arguments
    ⟨rfl, .leave n rfl fun _ => hstate, fun _ => hstate⟩
  refine gives_scope.bind moves_scope ?_
  rintro current rfl
  cases current with
  | module => exact gives_pure ⟨rfl, .plain n rfl, nofun⟩
  | function => exact gives_pure (hleaves false)
  | node | step => exact gives_pure (hleaves true)

theorem gives_specialStmt (name : String) (value : Expr) :
    Gives scope (specialStmt ⟨.graph, declared⟩ name value) fun stmt =>
      stmt.own = [stmt] ∧ stmt.isPlain := by
  unfold specialStmt
  split
  · exact gives_after (keeps_expr value) fun _ => gives_pure ⟨rfl, rfl⟩
  · split
    · exact gives_after (keeps_expr value) fun _ => gives_pure ⟨rfl, rfl⟩
    · exact (fails_fail _).gives

theorem gives_importStmt (kind : ImportKind) (names : List String) (path : String) :
    Gives scope (importStmt kind names path) fun stmt => stmt.own = [stmt] ∧ stmt.isPlain := by
  unfold importStmt
  split
  · exact gives_pure ⟨rfl, rfl⟩
  · exact (fails_fail _).gives
  · exact gives_pure ⟨rfl, rfl⟩

theorem gives_leaf (hkeeps : Moves Keeps step)
    (h : Gives scope step fun stmt => stmt.own = [stmt] ∧ Stems declared scope n stmt) :
    Gives scope (do return [← step]) fun stmts =>
      Sourced declared scope (n.walk false) (Stmt.listOwn stmts) :=
  h.bind hkeeps fun _ hstmt => gives_pure (.leaf hstmt.1 hstmt.2)

/-! ### Nodes -/

mutual

theorem gives_node (n : Node) :
    Gives scope (node ⟨.graph, declared⟩ n) fun stmts =>
      Sourced declared scope (n.walk false) (Stmt.listOwn stmts) := by
  cases n with
  | expr value =>
    refine (gives_run _).bind (keeps_expr value) ?_
    rintro code ⟨s, s', -, hcode⟩
    exact gives_pure (.leaf rfl (.value hcode))
  | parameter parameter =>
    exact gives_after (moves_parameterCode parameter) fun code =>
      gives_pure (.leaf rfl (.parameter parameter code))
  | function name parameters inner returns doc =>
    have hhints := (sameButHints_storeParameterHints parameters).mono State.SameButHints.keeps
    refine gives_after (moves_parameterList parameters) fun shown => ?_
    refine gives_after (moves_typeCode? returns) fun result => gives_after hhints fun _ => ?_
    refine (gives_inDefinition _ returns _).bind
      (keeps_inDefinition _ returns (keeps_body false inner)) ?_
    rintro stmts ⟨s, s', hscope, hbody⟩
    exact gives_pure (.leaf rfl (.define shown result hscope hbody))
  | graphNode name parameters inner returns visibility =>
    have hhints := (sameButHints_storeParameterHints parameters).mono State.SameButHints.keeps
    refine gives_after hhints fun _ => ?_
    refine (gives_inDefinition _ returns _).bind
      (keeps_inDefinition _ returns (keeps_body false inner)) ?_
    rintro stmts ⟨s, s', hscope, hbody⟩
    exact gives_pure (.leaf rfl (.defineNode hscope hbody))
  | goto target arguments =>
    refine gives_after (keeps_exprs arguments) fun codes => ?_
    exact gives_leaf (moves_gotoStmt target codes)
      ((gives_gotoStmt _ target codes).mono fun _ h => ⟨h.own, h.stems⟩)
  | uses tools => exact gives_after (keeps_useTools tools) fun _ => gives_pure .nil
  | assign name hint value =>
    have hhint := (sameButHints_storeHint? name hint).mono State.SameButHints.keeps
    cases value with
    | thread kind inner =>
      refine gives_after (keeps_fresh _) fun saved => ?_
      refine (gives_body false inner).bind (keeps_body false inner) fun stmts hstmts => ?_
      refine gives_pure (.around rfl (.thread name hint _ saved kind stmts) (hstmts.mono ?_))
      exact fun _ hmem => mem_cons_of_mem _ (mem_cons_of_mem _ hmem)
    | timed inner prints =>
      refine gives_after keeps_nextIndex fun index => ?_
      refine (gives_body false inner).bind (keeps_body false inner) fun stmts hstmts => ?_
      refine gives_pure (.around rfl (.timed name hint _ index stmts prints) (hstmts.mono ?_))
      exact fun _ hmem => mem_cons_of_mem _ (mem_cons_of_mem _ hmem)
    | expr value =>
      refine gives_after hhint fun _ => gives_after (moves_hintOf name) fun _ => ?_
      refine gives_after (keeps_expecting _ (keeps_expr value)) fun code => ?_
      refine (gives_allowedTypeCode hint).bind (moves_allowedTypeCode hint) fun _ hallowed => ?_
      exact gives_pure (.leaf rfl (.assign name hint _ code hallowed))
    | parameter parameter =>
      refine gives_after hhint fun _ => gives_after (moves_parameterCode parameter) fun code => ?_
      refine (gives_allowedTypeCode hint).bind (moves_allowedTypeCode hint) fun _ hallowed => ?_
      exact gives_pure (.leaf rfl (.assign name hint _ code hallowed))
    | _ =>
      rw [node_assign rfl]
      exact (Fails.behind fun _ => .behind fun _ => .behind fun _ => fails_fail _).gives
  | ret value =>
    refine gives_after (keeps_returned value) fun code => ?_
    exact gives_leaf (moves_retStmt code)
      ((gives_retStmt _ code).mono fun _ h => ⟨h.own, h.stems⟩)
  | hint name type =>
    have hkeeps := (sameButHints_storeHint name type).mono State.SameButHints.keeps
    refine gives_after hkeeps fun _ => ?_
    refine gives_annotationsAllowed.bind moves_annotationsAllowed ?_
    rintro _ rfl
    split
    next hallowed =>
      refine gives_after (moves_typeCode type) fun code => gives_pure (.leaf rfl ?_)
      exact .annotate name type code fun hstep => by simp [hstep] at hallowed
    next => exact gives_pure .nil
  | ifElse condition thenBody elseBody =>
    refine gives_after (keeps_expr condition) fun code => ?_
    refine (gives_body false thenBody).bind (keeps_body false thenBody) fun stmts hstmts => ?_
    refine (gives_elseBranches elseBody).bind (keeps_elseBranches elseBody) ?_
    rintro ⟨branches, otherwise⟩ hchain
    refine gives_pure (.around (congrArg (_ :: ·) (append_assoc ..)) (.plain _ rfl) ?_)
    exact (hstmts.append hchain).mono (subset_cons_self ..)
  | loop condition inner =>
    refine gives_after (keeps_expr condition) fun code => ?_
    refine (gives_body false inner).bind (keeps_body false inner) fun stmts hstmts => ?_
    exact gives_pure (.around rfl (.plain _ rfl) (hstmts.mono (subset_cons_self ..)))
  | select subject arms =>
    refine gives_after (keeps_fresh _) fun temp => gives_after (keeps_expr subject) fun value => ?_
    refine (gives_choices arms).bind (keeps_choices arms) ?_
    rintro ⟨choices, otherwise⟩ hchoices
    exact gives_pure (.around rfl (.plain _ rfl) (hchoices.mono (subset_cons_self ..)))
  | thread kind inner =>
    refine gives_after (keeps_fresh _) fun saved => ?_
    refine (gives_body false inner).bind (keeps_body false inner) fun stmts hstmts => ?_
    exact gives_pure (.around rfl (.plain _ rfl) (hstmts.mono (subset_cons_self ..)))
  | special name value =>
    exact gives_leaf (keeps_specialStmt name value)
      ((gives_specialStmt name value).mono fun _ h => ⟨h.1, .plain _ h.2⟩)
  | timed inner prints =>
    refine gives_after keeps_nextIndex fun index => ?_
    refine (gives_body false inner).bind (keeps_body false inner) fun stmts hstmts => ?_
    exact gives_pure (.around rfl (.plain _ rfl) (hstmts.mono (subset_cons_self ..)))
  | importNames kind names path =>
    exact gives_leaf (moves_importStmt kind names path)
      ((gives_importStmt kind names path).mono fun _ h => ⟨h.1, .plain _ h.2⟩)
  | importNodes | importTools | comment => exact gives_pure (.leaf rfl (.plain _ rfl))
  | blockComment text =>
    refine gives_pure (.plain (Node.mem_walk_self false _) fun stmt hstmt => ?_)
    rw [Stmt.listOwn_notes] at hstmt
    obtain ⟨line, -, rfl⟩ := mem_map.mp hstmt
    rfl
  | newline => exact gives_pure .nil
termination_by structural n

theorem gives_body (afterLineEnd : Bool) (inner : List Node) :
    Gives scope (body ⟨.graph, declared⟩ afterLineEnd inner) fun stmts =>
      Sourced declared scope (Node.walkList false inner) (Stmt.listOwn stmts) := by
  cases inner with
  | nil => exact gives_pure .nil
  | cons first rest =>
    have hfirst := (gives_node first).collecting (hoistsPrompts_node first)
    have hrest (b : Bool) := gives_body b rest
    by_cases hline : first = .newline
    · subst hline
      rw [body_newline]
      refine (hrest true).bind (keeps_body true rest) fun stmts hstmts => gives_pure ?_
      split
      · exact .cons (.plain _ rfl) hstmts
      · exact hstmts.mono (subset_cons_self ..)
    · rw [body_cons hline]
      refine hfirst.bind (keeps_collecting (keeps_node first)) ?_
      rintro ⟨hoisted, stmts⟩ ⟨hprompts, hstmts⟩
      refine (hrest false).bind (keeps_body false rest) fun others hothers => gives_pure ?_
      rw [Stmt.listOwn_append]
      exact (hstmts.hoisted hprompts).append hothers
termination_by structural inner

theorem gives_elseBranches (other : Option (List Node)) :
    Gives scope (elseBranches ⟨.graph, declared⟩ other) fun chain =>
      Sourced declared scope (Node.walkOption false other)
        (Stmt.branchOwn chain.1 ++ Stmt.otherwiseOwn chain.2) := by
  cases other with
  | none => exact gives_pure .nil
  | some nodes =>
    -- Unless a single branching continues the chain, the nodes are a body.
    have hbody : Gives scope (do return ([], some (← body ⟨.graph, declared⟩ false nodes)))
        fun chain => Sourced declared scope (Node.walkList false nodes)
          (Stmt.branchOwn chain.1 ++ Stmt.otherwiseOwn chain.2) :=
      (gives_body false nodes).bind (keeps_body false nodes) fun _ hstmts => gives_pure hstmts
    cases nodes with
    | nil => exact hbody
    | cons n rest =>
      cases rest with
      | cons second others => cases n <;> exact hbody
      | nil =>
        cases n with
        | ifElse condition thenBody elseBody =>
          refine gives_after (keeps_expr condition) fun code => ?_
          refine (gives_body false thenBody).bind (keeps_body false thenBody) fun stmts hstmts => ?_
          refine (gives_elseBranches elseBody).bind (keeps_elseBranches elseBody) ?_
          rintro ⟨branches, otherwise⟩ hchain
          refine gives_pure ?_
          rw [Stmt.branchOwn, append_assoc, Node.walkOption, Node.walkList, Node.walkList,
            append_nil]
          exact (hstmts.append hchain).mono (subset_cons_self ..)
        | _ => exact hbody
termination_by structural other

theorem gives_choices (arms : List Arm) :
    Gives scope (choices ⟨.graph, declared⟩ arms) fun chain =>
      Sourced declared scope (Node.walkArms false arms)
        (Stmt.choiceOwn chain.1 ++ Stmt.otherwiseOwn chain.2) := by
  cases arms with
  | nil => exact gives_pure .nil
  | cons first rest =>
    have hrest := gives_choices rest
    cases first with
    | comment text => exact hrest.bind (keeps_choices rest) fun _ hchain => gives_pure hchain
    | arm value inner =>
      have hinner := (gives_node inner).collecting (hoistsPrompts_node inner)
      have hkeeps : Moves Keeps (collecting (node ⟨.graph, declared⟩ inner)) :=
        keeps_collecting (keeps_node inner)
      cases value with
      | none =>
        refine hinner.bind hkeeps ?_
        rintro ⟨hoisted, stmts⟩ ⟨hprompts, hstmts⟩
        exact gives_pure ((hstmts.hoisted hprompts).mono (subset_append_left ..))
      | some value =>
        refine gives_after (keeps_expr value) fun code => hinner.bind hkeeps ?_
        rintro ⟨hoisted, stmts⟩ ⟨hprompts, hstmts⟩
        refine hrest.bind (keeps_choices rest) ?_
        rintro ⟨others, otherwise⟩ hchain
        refine gives_pure ?_
        rw [Stmt.choiceOwn, append_assoc]
        exact (hstmts.hoisted hprompts).append hchain
termination_by structural arms

end

/-! ### Statements of the top level -/

theorem gives_statement (n : Node) :
    Gives scope (statement ⟨.graph, declared⟩ n) fun stmts =>
      Sourced declared scope (n.walk false) (Stmt.listOwn stmts) := by
  refine ((gives_node n).collecting (hoistsPrompts_node n)).bind
    (keeps_collecting (keeps_node n)) ?_
  rintro ⟨hoisted, stmts⟩ ⟨hprompts, hstmts⟩
  exact gives_pure (hstmts.hoisted hprompts)

/-- A step returns by itself where its node does not. -/
theorem gives_stepBody (n : Node) :
    Gives .step (stepBody ⟨.graph, declared⟩ n) fun stmts =>
      Sourced declared .step (n.walk false) (Stmt.listOwn stmts) := by
  have hreturn {stmt : Stmt} (hown : stmt.own = [stmt]) (hreturn : stmt.isReturn)
      (hstate : stmt.ReturnsState) :
      Sourced declared .step (n.walk false) (Stmt.listOwn [stmt]) :=
    .leaf hown (.leave n hreturn fun _ => hstate)
  unfold stepBody
  cases plainValue? n with
  | some value =>
    refine gives_after (keeps_fresh .result) fun holder => ?_
    refine ((gives_run _).collecting (asks_expr value).hoistsPrompts).bind
      (keeps_collecting (keeps_expr value)) ?_
    rintro ⟨hoisted, code⟩ ⟨hprompts, -⟩
    have hhold : Sourced declared .step (n.walk false) (Stmt.listOwn [.hold holder code]) :=
      .leaf rfl (.plain n rfl)
    have hheld := hreturn rfl rfl (Stmt.returnsState_retHeld holder)
    exact gives_pure (.hoisted (hhold.join hheld) hprompts)
  | none =>
    refine (gives_statement n).bind (keeps_statement n) fun stmts hstmts => gives_pure ?_
    rw [Stmt.listOwn_append]
    refine hstmts.join ?_
    split
    · exact .nil
    · exact hreturn rfl rfl (.inl rfl)

end Compile
end AgentLang
