import AgentLang.Proofs.Compile.Calls
import AgentLang.Proofs.Compile.Leads
import AgentLang.Proofs.Grammar.Reading

/-!
# Updates of variables

An update such as `x += 1` is an operation like others in the source, but no expression of the
emitted code. Every update is emitted where its operation is compiled, so the emitted code uses one
as a value exactly if a node that is reached does.
-/

namespace AgentLang

open List

namespace Target

namespace Code

mutual

/-- Whether an update stands in the code. -/
def updates : Code → Bool
  | .access base links => base.updates || linksUpdate links
  | .list items => listUpdates items
  | .dict entries => entriesUpdate entries
  | .call _ arguments => listUpdates arguments
  | .invoke _ arguments => listUpdates arguments
  | .binary op left right => op.isAssignment || (left.updates || right.updates)
  | _ => false

def listUpdates : List Code → Bool
  | [] => false
  | code :: codes => code.updates || listUpdates codes

def entriesUpdate : List (String × Code) → Bool
  | [] => false
  | (_, value) :: entries => value.updates || entriesUpdate entries

def linksUpdate : List Link → Bool
  | [] => false
  | .property _ :: links => linksUpdate links
  | .index index :: links => index.updates || linksUpdate links
  | .method _ arguments :: links => listUpdates arguments || linksUpdate links

end

/-- Whether an update stands inside of the code, apart from its own operation. -/
def updatesInside : Code → Bool
  | .binary _ left right => left.updates || right.updates
  | code => code.updates

theorem listUpdates_eq_any (codes : List Code) : listUpdates codes = codes.any updates := by
  induction codes with
  | nil => rfl
  | cons code rest ih => rw [listUpdates, ih, any_cons]

theorem entriesUpdate_eq_any (entries : List (String × Code)) :
    entriesUpdate entries = (entries.map Prod.snd).any updates := by
  induction entries with
  | nil => rfl
  | cons entry rest ih => rw [entriesUpdate, ih, map_cons, any_cons]

/-- The code is an update, and no other one stands in it. -/
def IsUpdate (code : Code) : Prop :=
  ∃ op left right, code = .binary op left right ∧ op.isAssignment ∧ left.updates = false ∧
    right.updates = false

theorem IsUpdate.inside {code : Code} (h : code.IsUpdate) : code.updatesInside = false := by
  obtain ⟨op, left, right, rfl, -, hleft, hright⟩ := h
  rw [updatesInside, hleft, hright, Bool.or_false]

theorem isUpdate_of_not_inside {code : Code} (h : code.updates = true)
    (hinside : code.updatesInside = false) : code.IsUpdate := by
  cases code with
  | binary op left right =>
    obtain ⟨hleft, hright⟩ := Bool.or_eq_false_iff.mp hinside
    rw [updates, hleft, hright, Bool.or_false, Bool.or_false] at h
    exact ⟨op, left, right, rfl, h, hleft, hright⟩
  | _ => exact absurd (h.symm.trans hinside) (by decide)

theorem updates_of_inside {code : Code} (h : code.updatesInside = true) : code.updates = true := by
  cases code with
  | binary op left right =>
    rw [updates, Bool.or_eq_true_iff]
    exact .inr h
  | _ => exact h

end Code

/-- Whether an update stands in the configuration of the prompt. -/
def PromptFunction.updates (f : PromptFunction) : Bool :=
  (f.config.map Code.entriesUpdate).getD false

/-- The value that an arm is chosen for. -/
def Choice.value? : Choice → Option Code
  | .case value _ => some value
  | .note _ => none

namespace Stmt

/-- The expressions of a statement, apart from those of the statements inside it. -/
def codes : Stmt → List Code
  | .prompt function => (function.config.getD []).map Prod.snd
  | .expr value => [value]
  | .assign _ _ value => [value]
  | .hold _ value => [value]
  | .setModel value => [value]
  | .setMessages value => [value]
  | .discard value => value.toList
  | .ret value => value.toList
  | .retData value => value.toList
  | .call _ arguments => arguments
  | .retCall _ arguments => arguments
  | .goTo _ _ arguments => arguments
  | .runGraph _ arguments => arguments
  | .ifChain branches _ => branches.map Prod.fst
  | .loop condition _ => [condition]
  | .select _ value arms _ => value :: arms.filterMap Choice.value?
  | _ => []

/-- Whether an update stands in the statement and is not the whole of it. -/
def misuses : Stmt → Bool
  | .expr value => value.updatesInside
  | stmt => stmt.codes.any Code.updates

theorem misuses_eq_false_iff {stmt : Stmt} :
    stmt.misuses = false ↔
      ∀ code ∈ stmt.codes, code.updates = true → stmt = .expr code ∧ code.IsUpdate := by
  cases stmt with
  | expr value =>
    constructor
    · intro h code hcode hupdates
      obtain rfl := List.mem_singleton.mp hcode
      exact ⟨rfl, Code.isUpdate_of_not_inside hupdates h⟩
    · intro h
      rw [Bool.eq_false_iff]
      intro hinside
      have hupdate := (h value mem_cons_self (Code.updates_of_inside hinside)).2
      exact Bool.false_ne_true (hupdate.inside.symm.trans hinside)
  | _ =>
    constructor
    · intro h code hcode hupdates
      exact absurd hupdates (any_eq_false.mp h code hcode)
    · intro h
      refine any_eq_false.mpr fun code hcode hupdates => ?_
      cases (h code hcode hupdates).1

theorem any_misuses_prompts (functions : List PromptFunction) :
    (listParts (functions.map .prompt)).any misuses = functions.any PromptFunction.updates := by
  rw [listParts_prompts, any_map]
  congr 1
  funext f
  cases hconfig : f.config with
  | none => simp [misuses, codes, PromptFunction.updates, hconfig]
  | some entries =>
    simp only [Function.comp_apply, misuses, codes, PromptFunction.updates, hconfig,
      Option.getD_some, Option.map_some, Code.entriesUpdate_eq_any]

theorem any_misuses_notes (lines : List String) :
    (listParts (lines.map .note)).any misuses = false := by
  induction lines with
  | nil => rfl
  | cons line rest ih => exact ih

theorem any_misuses_ifChain (branches : List (Code × List Stmt)) (otherwise : Option (List Stmt)) :
    (listParts [.ifChain branches otherwise]).any misuses =
      ((branches.map Prod.fst).any Code.updates ||
        ((branchParts branches).any misuses || (otherwiseParts otherwise).any misuses)) := by
  rw [listParts_singleton, parts, any_append, any_cons, Bool.or_assoc]
  rfl

theorem any_misuses_select (subject : Temp) (value : Code) (arms : List Choice)
    (otherwise : Option (List Stmt)) :
    (listParts [.select subject value arms otherwise]).any misuses =
      (value.updates || ((arms.filterMap Choice.value?).any Code.updates ||
        ((choiceParts arms).any misuses || (otherwiseParts otherwise).any misuses))) := by
  rw [listParts_singleton, parts, any_append, any_cons]
  exact (Bool.or_assoc _ _ _).trans (Bool.or_assoc _ _ _)

end Stmt

end Target

namespace Expr

mutual

/-- Whether an update stands in the expression. -/
def updates : Expr → Bool
  | .prompt _ config => configUpdates config
  | .access base chain => base.updates || chainUpdates chain
  | .array items => listUpdates items
  | .object entries => entriesUpdate entries
  | .call _ arguments => listUpdates arguments
  | .binary op left right => op.isAssignment || (left.updates || right.updates)
  | _ => false

def listUpdates : List Expr → Bool
  | [] => false
  | first :: rest => first.updates || listUpdates rest

def entriesUpdate : List (String × Expr) → Bool
  | [] => false
  | (_, value) :: rest => value.updates || entriesUpdate rest

def configUpdates : Option (List (String × Expr)) → Bool
  | none => false
  | some entries => entriesUpdate entries

def chainUpdates : List Step → Bool
  | [] => false
  | .property _ :: rest => chainUpdates rest
  | .index index :: rest => index.updates || chainUpdates rest
  | .method _ arguments :: rest => listUpdates arguments || chainUpdates rest

end

/-- Whether an update stands inside of the expression, apart from its own operation. -/
def updatesInside : Expr → Bool
  | .binary _ left right => left.updates || right.updates
  | e => e.updates

theorem updates_or_inside (e : Expr) : (e.updates || e.updatesInside) = e.updates := by
  cases e with
  | binary op left right => rw [updates, updatesInside, Bool.or_assoc, Bool.or_self]
  | _ => exact Bool.or_self _

end Expr

/-- Whether an update stands in the values of the arms that are reached. -/
def Arm.valuesUpdate : List Arm → Bool
  | [] => false
  | .comment _ :: arms => valuesUpdate arms
  | .arm none _ :: _ => false
  | .arm (some value) _ :: arms => value.updates || valuesUpdate arms

/-- Whether a node by itself uses an update as a value. -/
def Node.misuses : Node → Bool
  | .expr value => value.updatesInside
  | .goto _ arguments => Expr.listUpdates arguments
  | .assign _ _ (.expr value) => value.updates
  | .ret (some value) => value.updates
  | .ifElse condition _ _ => condition.updates
  | .loop condition _ => condition.updates
  | .select subject arms => subject.updates || Arm.valuesUpdate arms
  | .special _ value => value.updates
  | _ => false

namespace Compile

open Target (Choice Code Link PromptFunction Section Stmt)

variable {setting : Setting}

/-! ### Expressions -/

theorem updates_routed (function : String) (codes : List Code) :
    (setting.routed function codes).updates = Code.listUpdates codes ∧
      (setting.routed function codes).updatesInside = Code.listUpdates codes := by
  unfold Setting.routed
  split <;> exact ⟨rfl, rfl⟩

mutual

theorem ExprBecomes.updates (h : ExprBecomes setting n e functions code n') :
    e.updates = (code.updates || functions.any (·.updates)) := by
  match h with
  | .number _ | .string _ | .multiline _ | .boolean _ | .name _ => rfl
  | .prompt segments schema tools hconfig =>
    rw [Expr.updates, hconfig.updates, any_append, any_cons, any_nil, Bool.or_false,
      Bool.or_comm]
    rfl
  | .access hbase hchain =>
    rw [Expr.updates, hbase.updates, hchain.updates, Code.updates, any_append]
    ac_rfl
  | .array hitems => exact hitems.updates
  | .object hentries => exact hentries.updates
  | .call function harguments =>
    rw [(updates_routed function _).1]
    exact harguments.updates
  | .binary op hleft hright =>
    rw [Expr.updates, hleft.updates, hright.updates, Code.updates, any_append]
    ac_rfl

theorem ExprsBecome.updates (h : ExprsBecome setting n es functions codes n') :
    Expr.listUpdates es = (Code.listUpdates codes || functions.any (·.updates)) := by
  match h with
  | .nil => rfl
  | .cons hfirst hrest =>
    rw [Expr.listUpdates, hfirst.updates, hrest.updates, Code.listUpdates, any_append]
    ac_rfl

theorem EntriesBecome.updates (h : EntriesBecome setting n entries functions codes n') :
    Expr.entriesUpdate entries = (Code.entriesUpdate codes || functions.any (·.updates)) := by
  match h with
  | .nil => rfl
  | .cons _ hvalue hrest =>
    rw [Expr.entriesUpdate, hvalue.updates, hrest.updates, Code.entriesUpdate, any_append]
    ac_rfl

theorem ConfigBecomes.updates (h : ConfigBecomes setting n config functions codes n') :
    Expr.configUpdates config =
      ((codes.map Code.entriesUpdate).getD false || functions.any (·.updates)) := by
  match h with
  | .none => rfl
  | .some hentries => exact hentries.updates

theorem ChainBecomes.updates {links : List Link}
    (h : ChainBecomes setting n chain functions links n') :
    Expr.chainUpdates chain = (Code.linksUpdate links || functions.any (·.updates)) := by
  match h with
  | .nil => rfl
  | .property _ hrest => exact hrest.updates
  | .index hvalue hrest =>
    rw [Expr.chainUpdates, hvalue.updates, hrest.updates, Code.linksUpdate, any_append]
    ac_rfl
  | .method _ harguments hrest =>
    rw [Expr.chainUpdates, harguments.updates, hrest.updates, Code.linksUpdate, any_append]
    ac_rfl

end

theorem ExprBecomes.updatesInside (h : ExprBecomes setting n e functions code n') :
    e.updatesInside = (code.updatesInside || functions.any (·.updates)) := by
  cases h with
  | binary op hleft hright =>
    rw [Expr.updatesInside, hleft.updates, hright.updates, Code.updatesInside, any_append]
    ac_rfl
  | call function harguments =>
    rw [(updates_routed function _).2]
    exact harguments.updates
  | number | string | multiline | boolean | name => rfl
  | prompt segments schema tools hconfig =>
    exact (ExprBecomes.prompt segments schema tools hconfig).updates
  | access hbase hchain => exact (ExprBecomes.access hbase hchain).updates
  | array hitems => exact hitems.updates
  | object hentries => exact hentries.updates

/-! ### Nodes -/

/-- One statement comes of a node, and others inside it of the nodes inside. -/
theorem any_misuses {first : Node} {stmt : Stmt} {functions : List PromptFunction}
    {nodes : List Node} {stmts : List Stmt} (hreached : first.reached = first :: nodes)
    (hparts : stmt.parts = stmt :: stmts)
    (hown : first.misuses = (stmt.misuses || functions.any (·.updates)))
    (hinner : nodes.any Node.misuses = stmts.any Stmt.misuses) :
    first.reached.any Node.misuses =
      (functions.any (·.updates) || (Stmt.listParts [stmt]).any Stmt.misuses) := by
  rw [hreached, Stmt.listParts_singleton, hparts, any_cons, any_cons, hown, hinner]
  ac_rfl

theorem misuses_gotoStmt (h : gotoStmt setting target codes s = (.ok stmt, s')) :
    stmt.parts = [stmt] ∧ stmt.misuses = Code.listUpdates codes := by
  rw [Code.listUpdates_eq_any]
  obtain ⟨-, rfl | rfl⟩ | ⟨-, rfl | ⟨handOn, rfl⟩⟩ := gotoStmt_ok h <;> exact ⟨rfl, rfl⟩

theorem misuses_retStmt (h : retStmt setting value s = (.ok stmt, s')) :
    stmt.parts = [stmt] ∧ stmt.misuses = value.toList.any Code.updates := by
  obtain rfl | rfl | rfl := retStmt_ok h <;> exact ⟨rfl, rfl⟩

theorem misuses_value (code : Code) : [code].any Code.updates = code.updates := Bool.or_false _

mutual

theorem NodeBecomes.misuses {n n' : Nat} {first : Node} {functions : List PromptFunction}
    {stmts : List Stmt} (h : NodeBecomes setting n first functions stmts n') :
    first.reached.any Node.misuses =
      (functions.any (·.updates) || (Stmt.listParts stmts).any Stmt.misuses) := by
  match h with
  | .expr hvalue => exact any_misuses rfl rfl hvalue.updatesInside rfl
  | .function _ _ _ hinner | .plainNode _ _ _ _ hinner | .assignThread _ _ _ hinner
  | .assignTimed _ _ _ hinner | .thread _ hinner | .timed _ hinner =>
    exact any_misuses rfl rfl rfl hinner.misuses
  | .graphNode _ hinner =>
    refine any_misuses rfl rfl rfl ?_
    rw [hinner.misuses, Stmt.listParts_append, Stmt.listParts_append, any_append,
      any_append]
    split <;> split <;> simp [Stmt.misuses, Stmt.codes, Stmt.listParts, Stmt.parts]
  | .goto harguments hstmt =>
    obtain ⟨hparts, hown⟩ := misuses_gotoStmt hstmt
    refine any_misuses rfl hparts ?_ rfl
    rw [hown]
    exact harguments.updates
  | .assign _ _ _ hvalue =>
    -- The value is reached as a node as well.
    change (Expr.updates _ || (Expr.updatesInside _ || false)) =
      (functions.any _ || ((Code.updates _ || false) || false))
    rw [Bool.or_false, Bool.or_false, Bool.or_false, Expr.updates_or_inside, hvalue.updates,
      Bool.or_comm]
  | .retNothing hstmt =>
    obtain ⟨hparts, hown⟩ := misuses_retStmt hstmt
    refine any_misuses rfl hparts ?_ rfl
    rw [hown]
    rfl
  | .ret hvalue hstmt =>
    obtain ⟨hparts, hown⟩ := misuses_retStmt hstmt
    refine any_misuses rfl hparts ?_ rfl
    rw [hown, Option.toList_some, misuses_value]
    exact hvalue.updates
  | .hint name type typeCode =>
    cases typeCode with
    | none | some => rfl
  | .ifElse hcondition hthen helse =>
    rw [Node.reached, any_append, any_cons, Node.misuses, hcondition.updates,
      hthen.misuses, helse.misuses, any_append, Stmt.any_misuses_ifChain, map_cons,
      any_cons, Stmt.branchParts, any_append]
    ac_rfl
  | .loop hcondition hinner =>
    refine any_misuses rfl rfl ?_ hinner.misuses
    exact hcondition.updates.trans (congrArg (· || _) (misuses_value _).symm)
  | .select hsubject harms =>
    rw [Node.reached, any_cons, Node.misuses, Bool.or_assoc, hsubject.updates, harms.misuses,
      any_append, Stmt.any_misuses_select]
    ac_rfl
  | .setModel hvalue | .setMessages hvalue =>
    exact any_misuses rfl rfl (hvalue.updates.trans (congrArg (· || _) (misuses_value _).symm)) rfl
  | .importNames hstmt => obtain rfl | ⟨shortName, rfl⟩ := importStmt_ok hstmt <;> rfl
  | .importNodes names path =>
    unfold importNodesStmt
    split <;> rfl
  | .blockComment text => exact (Stmt.any_misuses_notes _).symm
  | .parameter _ _ | .uses _ | .assignParameter _ _ _ _ _ | .importTools _ _ | .comment _
  | .newline => rfl

theorem BodyBecomes.misuses (h : BodyBecomes setting n nodes stmts n') :
    (Node.listReached nodes).any Node.misuses = (Stmt.listParts stmts).any Stmt.misuses := by
  match h with
  | .nil => rfl
  | .newline afterLineEnd hrest =>
    rw [Node.listReached, any_append, hrest.misuses]
    split <;> rfl
  | .cons hfirst hrest =>
    rw [Node.listReached, any_append, hfirst.misuses, hrest.misuses, Stmt.listParts_append,
      Stmt.listParts_append, any_append, any_append, Stmt.any_misuses_prompts]

theorem ElseBecomes.misuses (h : ElseBecomes setting n other functions branches otherwise n') :
    (Node.otherwiseReached other).any Node.misuses =
      (functions.any (·.updates) || ((branches.map Prod.fst).any Code.updates ||
        ((Stmt.branchParts branches).any Stmt.misuses ||
          (Stmt.otherwiseParts otherwise).any Stmt.misuses))) := by
  match h with
  | .none => rfl
  | .chain hcondition hthen helse =>
    rw [Node.otherwiseReached, Node.listReached, Node.listReached, append_nil, Node.reached,
      any_append, any_cons, Node.misuses, hcondition.updates, hthen.misuses,
      helse.misuses, any_append, map_cons, any_cons, Stmt.branchParts,
      any_append]
    ac_rfl
  | .last hlast hnodes => exact hnodes.misuses

theorem ArmsBecome.misuses {choices : List Choice}
    (h : ArmsBecome setting n arms functions choices otherwise n') :
    (Arm.valuesUpdate arms || (Node.armsReached arms).any Node.misuses) =
      (functions.any (·.updates) || ((choices.filterMap Choice.value?).any Code.updates ||
        ((Stmt.choiceParts choices).any Stmt.misuses ||
          (Stmt.otherwiseParts otherwise).any Stmt.misuses))) := by
  match h with
  | .nil => rfl
  | .comment _ hrest => exact hrest.misuses
  | .left _ hinner =>
    rw [Node.armsReached, hinner.misuses, Stmt.otherwiseParts, Stmt.listParts_append,
      any_append, Stmt.any_misuses_prompts]
    rfl
  | @ArmsBecome.arm _ _ value _ _ _ _ _ _ rest _ _ _ inner _ hvalue hinner hrest =>
    calc
      _ = (value.updates || inner.reached.any Node.misuses ||
          (Arm.valuesUpdate rest || (Node.armsReached rest).any Node.misuses)) := by
        rw [Arm.valuesUpdate, Node.armsReached, any_append]
        ac_rfl
      _ = _ := by
        rw [hvalue.updates, hinner.misuses, hrest.misuses, any_append, Stmt.choiceParts,
          Stmt.listParts_append, any_append, any_append, Stmt.any_misuses_prompts,
          filterMap_cons_some (f := Choice.value?) rfl, any_cons]
        ac_rfl

end

/-! ### Sections -/

theorem NodeBecomes.misuses_statements (h : NodeBecomes setting n first functions stmts n') :
    (Stmt.listParts (functions.map .prompt ++ stmts)).any Stmt.misuses =
      first.reached.any Node.misuses := by
  rw [Stmt.listParts_append, any_append, Stmt.any_misuses_prompts, h.misuses]

/-- The value that a step holds is no update. -/
theorem updatesInside_of_plain (h : plainValue? (.expr value) = some value) :
    value.updatesInside = value.updates := by
  cases value with
  | binary op left right =>
    cases hop : op.isAssignment with
    | true => simp [plainValue?, hop] at h
    | false => rw [Expr.updates, hop, Bool.false_or, Expr.updatesInside]
  | _ => rfl

theorem PartBecomes.misuses (h : PartBecomes setting n first group n') :
    (group.flatMap Section.parts).any Stmt.misuses = first.reached.any Node.misuses := by
  cases h with
  | newline => rfl
  | function h =>
    rw [← h.misuses_statements]
    exact congrArg (·.any Stmt.misuses) (append_nil _)
  | graphNode h =>
    rw [← h.misuses_statements]
    split <;> exact congrArg (·.any Stmt.misuses) (append_nil _)
  | outside _ h =>
    rw [← h.misuses_statements, flatMap_singleton]
    rfl
  | value _ hplain h =>
    rw [flatMap_singleton, Section.parts, Stmt.listParts_append, any_append,
      Stmt.any_misuses_prompts, Bool.or_comm]
    change ((Code.updates _ || false) || false || _) = (Expr.updatesInside _ || false)
    rw [Bool.or_false, Bool.or_false, Bool.or_false, updatesInside_of_plain hplain, h.updates]
  | step _ _ h =>
    rw [flatMap_singleton, Section.parts, Stmt.listParts_append, any_append,
      h.misuses_statements]
    split <;> exact Bool.or_false _

theorem PartsBecome.misuses {sections : List Section} (h : PartsBecome setting n nodes sections n') :
    (sections.flatMap Section.parts).any Stmt.misuses =
      (Node.listReached nodes).any Node.misuses := by
  induction h with
  | nil => rfl
  | cons hfirst _ ih =>
    rw [flatMap_append, any_append, hfirst.misuses, ih, Node.listReached, any_append]

end Compile

namespace Program

open Compile
open Target (Code Stmt)

theorem misuses_of_compile {program : Program} {options : CompileOptions} {compiled : Compiled}
    (h : program.compile options = .ok compiled) :
    compiled.module.parts.any Stmt.misuses =
      (Node.listReached program.nodes).any Node.misuses := by
  have hbecomes := (becomes_of_compile h).1
  unfold Target.Module.parts
  generalize compiled.module.sections = sections at hbecomes
  cases hbecomes with
  | script _ hbody =>
    rw [hbody.misuses, flatMap_singleton]
    rfl
  | graph _ hparts => exact hparts.misuses

/-- No node of a program that is reached uses an update as a value exactly if every expression with
an update that is emitted is a statement, on a line of its own, whose operands hold no other one. -/
theorem updates_are_statements_iff {program : Program} {options : CompileOptions}
    {compiled : Compiled} (h : program.compile options = .ok compiled) :
    (∀ n ∈ Node.listReached program.nodes, n.misuses = false) ↔
      ∀ stmt ∈ compiled.module.parts, ∀ code ∈ stmt.codes, code.updates = true →
        stmt = .expr code ∧ code.IsUpdate ∧ stmt.lines = [code.toText] := by
  have hiff : (∀ stmt ∈ compiled.module.parts, stmt.misuses = false) ↔
      ∀ n ∈ Node.listReached program.nodes, n.misuses = false := by
    simp only [← Bool.not_eq_true, ← any_eq_false, misuses_of_compile h]
  rw [← hiff]
  constructor
  · intro hall stmt hstmt code hcode hupdates
    obtain ⟨rfl, hupdate⟩ := Stmt.misuses_eq_false_iff.mp (hall stmt hstmt) code hcode hupdates
    exact ⟨rfl, hupdate, rfl⟩
  · intro hall stmt hstmt
    refine Stmt.misuses_eq_false_iff.mpr fun code hcode hupdates => ?_
    obtain ⟨hstmt, hupdate, -⟩ := hall stmt hstmt code hcode hupdates
    exact ⟨hstmt, hupdate⟩

section

-- The texts are read by evaluation, which goes deeper than the limit allows.
set_option maxRecDepth 2000

theorem updates_are_statements_loop :
    ∃ program compiled, parse "while(a)\x7by+=z\x7d" none = .ok program ∧
      program.compile {} = .ok compiled ∧
      (∀ stmt ∈ compiled.module.parts, ∀ code ∈ stmt.codes, code.updates = true →
        stmt = .expr code ∧ code.IsUpdate ∧ stmt.lines = [code.toText]) ∧
      (compiled.module.parts.filter (·.codes.any Code.updates)).map Stmt.lines = [["y += z"]] := by
  refine exists_compiled_of ⟨[.loop (.name "a")
      [.expr (.binary .addAssign (.name "y") (.name "z"))]]⟩ (parse_eq_ok 12 rfl rfl)
    (by decide +kernel) fun program compiled hprogram _ hcompile => ?_
  have hnone : ∀ n ∈ Node.listReached program.nodes, n.misuses = false := by
    subst hprogram
    decide
  refine ⟨(updates_are_statements_iff hcompile).mp hnone,
    compiled_eq (fun compiled => (compiled.module.parts.filter _).map Stmt.lines) hcompile ?_⟩
  subst hprogram
  decide +kernel

/-- The value of an assignment may be an update. -/
theorem update_as_value :
    ∃ program compiled, parse "x = y += 1" none = .ok program ∧
      program.compile {} = .ok compiled ∧
      ∃ stmt ∈ compiled.module.parts, ∃ code ∈ stmt.codes, code.updates = true ∧
        stmt ≠ .expr code ∧ stmt.lines = ["x = y += 1"] := by
  refine exists_compiled_of ⟨[.assign "x" none
      (.expr (.binary .addAssign (.name "y") (.number "1")))]⟩ (parse_eq_ok 12 rfl rfl)
    (by decide +kernel) fun program compiled hprogram _ hcompile => ?_
  refine ⟨.assign "x" none (.binary .addAssign (.name "y") (.number "1")), ?_, _,
    mem_cons_self, rfl, nofun, rfl⟩
  have hparts : compiled.module.parts = [_] :=
    compiled_eq (·.module.parts) hcompile (by subst hprogram; rfl)
  rw [hparts]
  apply mem_cons_self

end

end Program
end AgentLang
