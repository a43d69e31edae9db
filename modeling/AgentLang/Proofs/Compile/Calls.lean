import AgentLang.Proofs.Compile.Becomes
import AgentLang.Proofs.Compile.Outcome
import AgentLang.Proofs.Target.Calls

/-!
# An account of calls

Every call in the source becomes the calls that it is routed to. Apart from those, the emitted code
calls every function that it defines for a prompt, and each of them once. The numbers that are given
out are all taken, each by one temporary name.
-/

namespace AgentLang.Compile

open List
open Target (Call Choice Code Link PromptFunction Section Stmt Tally)
open Target.Stmt (tally_append tally_leaf tally_if tally_plain)
open Target.Tally (calls_add numbers_add ofCalls ofCalls_append ofNumber ofPrompt prompts_add)

/-- The calls that one in the source becomes. Control is passed through the graph where there is
one. -/
def Setting.route (setting : Setting) : Called → List Call
  | .function name =>
    [if isInvoked setting name then .invoke name else .function (setting.resolved name)]
  | .node name =>
    match setting.backend with
    | .script => [.transfer name]
    | .graph => []

namespace Setting

variable {setting : Setting} {called : Called} {name : String}

theorem invoke_mem_route_iff :
    .invoke name ∈ setting.route called ↔ called = .function name ∧ isInvoked setting name := by
  cases called with
  | function function =>
    rw [route, List.mem_singleton]
    constructor
    · intro h
      split at h
      · next hinvoked =>
        cases h
        exact ⟨rfl, hinvoked⟩
      · exact nomatch h
    · rintro ⟨hname, hinvoked⟩
      cases hname
      rw [if_pos hinvoked]
  | node target =>
    rw [route]
    split <;> simp

theorem function_mem_route_iff :
    .function name ∈ setting.route called ↔ ∃ function, called = .function function ∧
      ¬ isInvoked setting function ∧ setting.resolved function = name := by
  cases called with
  | function function =>
    rw [route, List.mem_singleton]
    constructor
    · intro h
      split at h
      · exact nomatch h
      · next hinvoked =>
        cases h
        exact ⟨function, rfl, hinvoked, rfl⟩
    · rintro ⟨other, hother, hinvoked, rfl⟩
      cases hother
      rw [if_neg hinvoked]
  | node target =>
    rw [route]
    split <;> simp

end Setting

/-- The tally of code that comes of these calls, with all numbers from behind the first up to the
second. -/
structure Accounts (setting : Setting) (n : Nat) (called : List Called) (tally : Tally) (n' : Nat) :
    Prop where
  le : n ≤ n'
  calls : tally.calls = (called.flatMap setting.route : List Call) +
    tally.prompts.map PromptFunction.call
  numbers : tally.numbers = Multiset.Ico (n + 1) (n' + 1)

namespace Accounts

variable {setting : Setting} {n k n' : Nat} {called later : List Called} {tally other : Tally}

theorem add (h : Accounts setting n called tally k) (h' : Accounts setting k later other n') :
    Accounts setting n (called ++ later) (tally + other) n' where
  le := h.le.trans h'.le
  calls := by
    rw [calls_add, h.calls, h'.calls, flatMap_append, ← Multiset.coe_add,
      prompts_add, Multiset.map_add]
    abel
  numbers := by
    rw [numbers_add, h.numbers, h'.numbers]
    exact Multiset.Ico_add_Ico_eq_Ico (Nat.succ_le_succ h.le) (Nat.succ_le_succ h'.le)

/-- Two codes that are evaluated one after the other, with the functions put ahead of them. -/
theorem both {calls others : List Call} {functions waiting : List PromptFunction}
    (h : Accounts setting n called (ofCalls calls + Stmt.tally (functions.map .prompt)) k)
    (h' : Accounts setting k later (ofCalls others + Stmt.tally (waiting.map .prompt)) n') :
    Accounts setting n (called ++ later)
      (ofCalls (calls ++ others) + Stmt.tally ((functions ++ waiting).map .prompt)) n' := by
  rw [ofCalls_append, map_append, tally_append, add_add_add_comm]
  exact h.add h'

theorem of_eq (h : Accounts setting n called tally n') (heq : other = tally) :
    Accounts setting n called other n' := heq ▸ h

theorem perm (h : Accounts setting n called tally n') (hperm : later.Perm called) :
    Accounts setting n later tally n' where
  le := h.le
  calls := by
    rw [h.calls, Multiset.coe_eq_coe.mpr (hperm.flatMap_right _)]
  numbers := h.numbers

theorem nothing (setting : Setting) (n : Nat) : Accounts setting n [] 0 n := by
  constructor
  · exact Nat.le_refl n
  · simp
  · simp

theorem routed (setting : Setting) (n : Nat) (call : Called) :
    Accounts setting n [call] (ofCalls (setting.route call)) n := by
  constructor
  · exact Nat.le_refl n
  · simp [ofCalls]
  · simp [ofCalls]

theorem number (setting : Setting) (n : Nat) :
    Accounts setting n [] (ofNumber (n + 1)) (n + 1) := by
  constructor
  · exact Nat.le_succ n
  · simp [ofNumber]
  · exact congrArg Finset.val (Nat.Ico_succ_singleton (n + 1)).symm

/-- A function for a prompt takes its number first, and it is called once. -/
theorem prompt
    (h : Accounts setting (n + 1) called (ofCalls f.calls + Stmt.tally (functions.map .prompt)) n')
    (hindex : f.index = n + 1) :
    Accounts setting n called
      (ofCalls [f.call] + Stmt.tally ((functions ++ [f]).map .prompt)) n' := by
  have htally : ofCalls [f.call] + Stmt.tally ((functions ++ [f]).map .prompt) =
      ofCalls f.calls + Stmt.tally (functions.map .prompt) + (ofCalls [f.call] + ofPrompt f) := by
    rw [map_append, tally_append, map_singleton, Stmt.tally_prompt]
    abel
  have hnumber := (number setting n).add h
  rw [htally]
  constructor
  · exact hnumber.le
  · rw [calls_add, h.calls]
    simp [ofCalls, ofPrompt, add_assoc]
  · rw [← hnumber.numbers]
    simp [ofCalls, ofPrompt, ofNumber, hindex, add_comm]

end Accounts

theorem calls_routed (setting : Setting) (name : String) (codes : List Code) :
    (setting.routed name codes).calls = setting.route (.function name) ++ Code.listCalls codes := by
  unfold Setting.routed Setting.route
  by_cases hinvoked : isInvoked setting name
  · simp [hinvoked, Code.calls]
  · simp [hinvoked, Code.calls]

variable {setting : Setting}

/-! ### Expressions -/

mutual

theorem ExprBecomes.accounts (h : ExprBecomes setting n e functions code n') :
    Accounts setting n e.called (ofCalls code.calls + Stmt.tally (functions.map .prompt)) n' := by
  match h with
  | .number _ | .string _ | .multiline _ | .boolean _ | .name _ =>
    exact .of_eq (.nothing setting n) (by simp [Code.calls])
  | .prompt segments schema tools hconfig =>
    exact .prompt hconfig.accounts rfl
  | .access hbase hchain =>
    exact hbase.accounts.both hchain.accounts
  | .array hitems => exact hitems.accounts
  | .object hentries => exact hentries.accounts
  | .call function harguments =>
    refine (harguments.accounts.add (.routed setting _ (.function function))).of_eq ?_
    simp only [calls_routed, ofCalls_append]
    abel
  | .binary op hleft hright =>
    exact hleft.accounts.both hright.accounts

theorem ExprsBecome.accounts (h : ExprsBecome setting n es functions codes n') :
    Accounts setting n (Expr.listCalled es)
      (ofCalls (Code.listCalls codes) + Stmt.tally (functions.map .prompt)) n' := by
  match h with
  | .nil => exact .of_eq (.nothing setting n) (by simp [Code.listCalls])
  | .cons hfirst hrest =>
    exact hfirst.accounts.both hrest.accounts

theorem EntriesBecome.accounts (h : EntriesBecome setting n entries functions codes n') :
    Accounts setting n (Expr.entriesCalled entries)
      (ofCalls (Code.entriesCalls codes) + Stmt.tally (functions.map .prompt)) n' := by
  match h with
  | .nil => exact .of_eq (.nothing setting n) (by simp [Code.entriesCalls])
  | .cons _ hvalue hrest =>
    exact hvalue.accounts.both hrest.accounts

theorem ConfigBecomes.accounts (h : ConfigBecomes setting n config functions codes n') :
    Accounts setting n (Expr.configCalled config)
      (ofCalls (Code.configCalls codes) + Stmt.tally (functions.map .prompt)) n' := by
  match h with
  | .none => exact .of_eq (.nothing setting n) (by simp [Code.configCalls])
  | .some hentries => exact hentries.accounts

theorem ChainBecomes.accounts {links : List Link}
    (h : ChainBecomes setting n chain functions links n') :
    Accounts setting n (Expr.chainCalled chain)
      (ofCalls (Code.linksCalls links) + Stmt.tally (functions.map .prompt)) n' := by
  match h with
  | .nil => exact .of_eq (.nothing setting n) (by simp [Code.linksCalls])
  | .property _ hrest => exact hrest.accounts
  | .index hvalue hrest =>
    exact hvalue.accounts.both hrest.accounts
  | .method _ harguments hrest =>
    exact harguments.accounts.both hrest.accounts

end

/-! ### Nodes -/

theorem gotoStmt_ok (h : gotoStmt setting target codes s = (.ok stmt, s')) :
    (setting.backend = .script ∧ (stmt = .call target codes ∨ stmt = .retCall target codes)) ∨
      (setting.backend = .graph ∧
        (stmt = .runGraph target codes ∨ ∃ handOn, stmt = .goTo handOn target codes)) := by
  unfold gotoStmt at h
  obtain ⟨scope, _, -, h⟩ := Build.bind_ok h
  cases hbackend : setting.backend with
  | script | graph =>
    rw [hbackend] at h
    cases scope <;> cases h <;> simp

theorem retStmt_ok (h : retStmt setting value s = (.ok stmt, s')) :
    stmt = .discard value ∨ stmt = .retData value ∨ stmt = .ret value := by
  unfold retStmt at h
  obtain ⟨scope, _, -, h⟩ := Build.bind_ok h
  cases hbackend : setting.backend with
  | script | graph =>
    rw [hbackend] at h
    cases scope <;> cases h <;> simp

theorem importStmt_ok (h : importStmt kind names path s = (.ok stmt, s')) :
    stmt = .importNames (moduleName path) names ∨
      ∃ shortName, stmt = .importModule (moduleName path) shortName := by
  unfold importStmt at h
  split at h
  · cases h
    exact .inl rfl
  · exact absurd h (Build.fails_fail _ s stmt s')
  · cases h
    exact .inr ⟨_, rfl⟩

theorem gotoStmt_leaf (h : gotoStmt setting target codes s = (.ok stmt, s')) :
    stmt.Leaf (setting.route (.node target) ++ Code.listCalls codes) := by
  rw [Setting.route]
  obtain ⟨hbackend, rfl | rfl⟩ | ⟨hbackend, rfl | ⟨handOn, rfl⟩⟩ := gotoStmt_ok h <;>
  · rw [hbackend]
    exact ⟨fun _ => rfl, rfl, rfl, rfl⟩

theorem retStmt_leaf (h : retStmt setting value s = (.ok stmt, s')) :
    stmt.Leaf (Code.optionCalls value) := by
  obtain rfl | rfl | rfl := retStmt_ok h <;> exact ⟨fun _ => rfl, rfl, rfl, rfl⟩

theorem importStmt_leaf (h : importStmt kind names path s = (.ok stmt, s')) : stmt.Leaf [] := by
  obtain rfl | ⟨shortName, rfl⟩ := importStmt_ok h <;> exact ⟨fun _ => rfl, rfl, rfl, rfl⟩

theorem importNodesStmt_leaf (names : List String) (path : String) :
    (importNodesStmt setting names path).Leaf [] := by
  unfold importNodesStmt
  split <;> exact ⟨fun _ => rfl, rfl, rfl, rfl⟩

mutual

theorem NodeBecomes.accounts (h : NodeBecomes setting n first functions stmts n') :
    Accounts setting n first.called
      (Stmt.tally stmts + Stmt.tally (functions.map .prompt)) n' := by
  match h with
  | .expr hvalue | .setModel hvalue | .setMessages hvalue =>
    rw [Node.called_leaf rfl, tally_leaf ⟨fun _ => rfl, rfl, rfl, rfl⟩]
    exact hvalue.accounts
  | .parameter _ _ | .assignParameter _ _ _ _ _ =>
    rw [tally_leaf ⟨fun _ => rfl, rfl, rfl, rfl⟩]
    exact .nothing setting n
  | .function _ _ _ hinner | .plainNode _ _ _ _ hinner =>
    rw [Stmt.tally_define]
    exact hinner.accounts.of_eq (add_zero _)
  | .graphNode _ hinner =>
    rw [Stmt.tally_defineNode, tally_append, tally_append,
      tally_if (tally_plain ⟨fun _ => rfl, rfl, rfl, rfl⟩),
      tally_if (tally_plain ⟨fun _ => rfl, rfl, rfl, rfl⟩)]
    exact hinner.accounts.of_eq (by simp)
  | .goto harguments hstmt =>
    rw [Node.called_leaf rfl, tally_leaf (gotoStmt_leaf hstmt), ofCalls_append]
    refine (harguments.accounts.add (.routed setting _ _)).of_eq ?_
    abel
  | .uses _ | .newline => exact .nothing setting n
  | .assign _ _ _ hvalue =>
    rw [tally_leaf ⟨fun _ => rfl, rfl, rfl, rfl⟩]
    change Accounts setting n (Node.called (.expr _)) _ _
    rw [Node.called_leaf rfl]
    exact hvalue.accounts
  | .assignThread _ _ _ hinner | .thread _ hinner =>
    rw [Stmt.tally_thread]
    exact ((Accounts.number setting n).add hinner.accounts).of_eq (add_zero _)
  | .assignTimed _ _ _ hinner | .timed _ hinner =>
    rw [Stmt.tally_timed]
    exact ((Accounts.number setting n).add hinner.accounts).of_eq (add_zero _)
  | .retNothing hstmt =>
    rw [tally_leaf (retStmt_leaf hstmt)]
    exact .nothing setting n
  | .ret hvalue hstmt =>
    rw [Node.called_leaf rfl, tally_leaf (retStmt_leaf hstmt)]
    exact hvalue.accounts
  | .hint name type typeCode =>
    cases typeCode with
    | none => exact .nothing setting n
    | some code =>
      change Accounts setting n [] (Stmt.tally [.annotate name code] + 0) n
      rw [tally_plain ⟨fun _ => rfl, rfl, rfl, rfl⟩]
      exact .nothing setting n
  | .ifElse hcondition hthen helse =>
    rw [Node.called_ifElse, Stmt.tally_ifChain, Stmt.branchTally_cons]
    refine (hcondition.accounts.add (hthen.accounts.add helse.accounts)).of_eq ?_
    rw [map_append, tally_append]
    abel
  | .loop hcondition hinner =>
    rw [Node.called_loop, Stmt.tally_loop]
    refine (hcondition.accounts.add hinner.accounts).of_eq ?_
    abel
  | .select hsubject harms =>
    rw [Node.called_select, Stmt.tally_select]
    refine ((Accounts.number setting n).add (hsubject.accounts.add harms.accounts)).of_eq ?_
    rw [map_append, tally_append]
    abel
  | .importNames hstmt =>
    rw [tally_plain (importStmt_leaf hstmt)]
    exact .nothing setting n
  | .importNodes names path =>
    rw [tally_plain (importNodesStmt_leaf names path)]
    exact .nothing setting n
  | .importTools _ _ | .comment _ =>
    rw [tally_plain ⟨fun _ => rfl, rfl, rfl, rfl⟩]
    exact .nothing setting n
  | .blockComment _ =>
    rw [Stmt.tally_notes]
    exact .nothing setting n

theorem BodyBecomes.accounts (h : BodyBecomes setting n nodes stmts n') :
    Accounts setting n (Node.listCalled nodes) (Stmt.tally stmts) n' := by
  match h with
  | .nil => exact .nothing setting n
  | .newline afterLineEnd hrest =>
    refine hrest.accounts.of_eq ?_
    split
    · rw [Stmt.tally_cons, tally_plain ⟨fun _ => rfl, rfl, rfl, rfl⟩, zero_add]
    · rfl
  | .cons hfirst hrest =>
    rw [Node.listCalled_cons]
    refine (hfirst.accounts.add hrest.accounts).of_eq ?_
    rw [tally_append, tally_append]
    abel

theorem ElseBecomes.accounts (h : ElseBecomes setting n other functions branches otherwise n') :
    Accounts setting n (Node.otherwiseCalled other) (Stmt.branchTally branches +
      Stmt.otherwiseTally otherwise + Stmt.tally (functions.map .prompt)) n' := by
  match h with
  | .none => exact .of_eq (.nothing setting n) (by simp)
  | .chain hcondition hthen helse =>
    rw [Node.otherwiseCalled_chain, Stmt.branchTally_cons]
    refine (hcondition.accounts.add (hthen.accounts.add helse.accounts)).of_eq ?_
    rw [map_append, tally_append]
    abel
  | .last _ hnodes => exact hnodes.accounts.of_eq (by simp)

theorem ArmsBecome.accounts {choices : List Choice}
    (h : ArmsBecome setting n arms functions choices otherwise n') :
    Accounts setting n (Node.armsCalled arms) (Stmt.choiceTally choices +
      Stmt.otherwiseTally otherwise + Stmt.tally (functions.map .prompt)) n' := by
  match h with
  | .nil => exact .of_eq (.nothing setting n) (by simp)
  | .comment _ hrest => exact hrest.accounts
  | .left _ hinner =>
    refine hinner.accounts.of_eq ?_
    rw [Stmt.choiceTally_nil, Stmt.otherwiseTally_some, tally_append, map_nil,
      Stmt.tally_nil]
    abel
  | .arm hvalue hinner hrest =>
    refine ((hvalue.accounts.add (hinner.accounts.add hrest.accounts)).perm ?_).of_eq ?_
    · exact Node.armsCalled_arm _ _ _
    · rw [Stmt.choiceTally_case, tally_append, map_append, tally_append]
      abel

end

/-! ### Sections -/

theorem PartBecomes.accounts (h : PartBecomes setting n first group n') :
    Accounts setting n first.called (Section.listTally group) n' := by
  cases h with
  | newline => exact .nothing setting n
  | function h =>
    have hall := h.accounts.add (.number setting _)
    rw [append_nil] at hall
    refine hall.of_eq ?_
    simp only [Section.listTally_cons, Section.tally, tally_append, Section.listTally_nil]
    abel
  | graphNode h =>
    refine h.accounts.of_eq ?_
    split
    · simp [Section.tally, add_comm]
    · simp [Section.tally, add_comm]
  | outside _ h =>
    refine h.accounts.of_eq ?_
    simp [Section.tally, add_comm]
  | value _ _ h =>
    rw [Node.called_leaf rfl]
    refine ((Accounts.number setting n).add ((Accounts.number setting (n + 1)).add
      h.accounts)).of_eq ?_
    rw [Section.listTally_cons, Section.listTally_nil, Section.tally, tally_append,
      Stmt.tally_cons, Stmt.tally_hold, tally_plain ⟨fun _ => rfl, rfl, rfl, rfl⟩]
    abel
  | step _ _ h =>
    refine ((Accounts.number setting n).add h.accounts).of_eq ?_
    rw [Section.listTally_cons, Section.listTally_nil, Section.tally, tally_append,
      tally_append, tally_if (tally_plain ⟨fun _ => rfl, rfl, rfl, rfl⟩)]
    abel

theorem PartsBecome.accounts {sections : List Section} (h : PartsBecome setting n nodes sections n') :
    Accounts setting n (Node.listCalled nodes) (Section.listTally sections) n' := by
  induction h with
  | nil => exact .nothing setting _
  | cons hfirst _ ih =>
    rw [Node.listCalled_cons, Section.listTally_append]
    exact hfirst.accounts.add ih

theorem SectionsBecome.accounts {sections : List Section}
    (h : SectionsBecome setting nodes sections n) :
    Accounts setting 0 (Node.listCalled nodes) (Section.listTally sections) n := by
  cases h with
  | script _ h => exact h.accounts.of_eq (by simp [Section.tally])
  | graph _ h => exact h.accounts

theorem PartsBecome.wraps {sections : List Section} (h : PartsBecome setting n nodes sections n') :
    sections.filterMap Section.wraps? = nodes.filterMap Declared.functionName? := by
  induction h with
  | nil => rfl
  | @cons _ first group _ rest others _ hfirst _ ih =>
    have hgroup : group.filterMap Section.wraps? = (Declared.functionName? first).toList := by
      cases hfirst with
      | newline | function => rfl
      | graphNode h => split <;> rfl
      | outside houtside h =>
        cases first with
        | function => exact nomatch houtside
        | _ => rfl
      | value assigned h => rfl
      | step assigned hfirst h =>
        cases first with
        | function => exact absurd hfirst Bool.false_ne_true
        | _ => rfl
    rw [filterMap_append, hgroup, ih]
    cases hname : Declared.functionName? first <;> simp [hname]

end AgentLang.Compile

namespace AgentLang.Program

open Compile
open Target (Call PromptFunction Section)

variable {program : Program} {setting : Setting} {module : Target.Module} {n : Nat}

/-- The functions that a program has nodes made of. -/
def wrapped (program : Program) : Backend → List String
  | .script => []
  | .graph => program.functions

theorem wrapped_eq (h : SectionsBecome setting program.nodes module.sections n) :
    module.wrapped = program.wrapped setting.backend := by
  unfold Target.Module.wrapped
  generalize module.sections = sections at h
  cases h with
  | script hbackend h =>
    rw [hbackend]
    rfl
  | graph hbackend h =>
    rw [hbackend, h.wraps]
    rfl

/-- The calls of a module: those that the calls of the program are routed to, one for each function
that is made for a prompt, and those by which nodes run functions. -/
theorem calls_of_becomes (h : SectionsBecome setting program.nodes module.sections n) :
    (module.calls : Multiset Call) = (program.called.flatMap setting.route : List Call) +
      (module.prompts.map PromptFunction.call : List Call) +
      ((program.wrapped setting.backend).map Call.wrapped : List Call) := by
  rw [module.calls_eq, h.accounts.calls, ← module.prompts_eq, wrapped_eq h]
  rfl

theorem mem_calls_iff (h : SectionsBecome setting program.nodes module.sections n) :
    call ∈ module.calls ↔ (∃ called ∈ program.called, call ∈ setting.route called) ∨
      (∃ f ∈ module.prompts, f.call = call) ∨
      ∃ name ∈ program.wrapped setting.backend, .wrapped name = call := by
  rw [← Multiset.mem_coe, calls_of_becomes h, Multiset.mem_add, Multiset.mem_add, or_assoc]
  simp only [Multiset.mem_coe, List.mem_flatMap, List.mem_map]

theorem indices_nodup (h : SectionsBecome setting program.nodes module.sections n) :
    (module.prompts.map PromptFunction.index).Nodup := by
  have hle := Section.indices_le module.sections
  rw [← module.prompts_eq, h.accounts.numbers] at hle
  exact Multiset.coe_nodup.mp (Multiset.nodup_of_le hle (Finset.nodup _))

end AgentLang.Program
