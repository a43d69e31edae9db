import AgentLang.Proofs.Compile.Calls
import AgentLang.Proofs.Compile.Leads
import AgentLang.Proofs.Target.Mentions

/-!
# Literals and names of a program

Every literal and every name of a program is emitted at a place that the program determines, as far
as the node that it stands in is reached. The emitted code mentions nothing else.
-/

namespace AgentLang

open List
open Target (Item Mention Place)
open Target.Mention (of of_append of_nil)

/-- What a call mentions besides its arguments. The graph is told the function by a text. -/
def Compile.Setting.callee (setting : Compile.Setting) (function : String) : List Item :=
  if Compile.isInvoked setting function then [] else [.name (setting.resolved function)]

/-- The names that depend on the absence of a graph, which knows nodes by texts. -/
def Compile.Setting.plainNames (setting : Compile.Setting) (names : List String) : List Item :=
  match setting.backend with
  | .script => names.map .name
  | .graph => []

/-- Where the body of a node of the graph stands. -/
def Compile.Setting.nodePlace (setting : Compile.Setting) (place : Place) : Place :=
  match setting.backend with
  | .script => place.inside
  | .graph => .graph

/-- The names that an import binds. A module is bound to one name. -/
def ImportKind.bound (names : List String) : ImportKind → List String
  | .named => names
  | _ => names.take 1

variable (setting : Compile.Setting)

namespace Expr

mutual

/-- The literals and names of an expression. The text of a prompt and its configuration belong to
the function that is made for the prompt, the names in the text are handed to it. -/
def mentions (place : Place) (inPrompt : Bool) : Expr → Multiset Mention
  | .string segments => of place inPrompt (Target.literalItems segments false)
  | .multiline segments => of place inPrompt (Target.literalItems segments true)
  | .name ident => of place inPrompt [.name ident]
  | .prompt segments config =>
    of place true [.literal segments false] +
      of place inPrompt ((Segment.names segments).map .name) + configMentions place config
  | .access base chain => base.mentions place inPrompt + chainMentions place inPrompt chain
  | .array items => listMentions place inPrompt items
  | .object entries => entriesMentions place inPrompt entries
  | .call function arguments =>
    of place inPrompt (setting.callee function) + listMentions place inPrompt arguments
  | .binary _ left right => left.mentions place inPrompt + right.mentions place inPrompt
  | _ => 0

def listMentions (place : Place) (inPrompt : Bool) : List Expr → Multiset Mention
  | [] => 0
  | first :: rest => first.mentions place inPrompt + listMentions place inPrompt rest

def entriesMentions (place : Place) (inPrompt : Bool) : List (String × Expr) → Multiset Mention
  | [] => 0
  | (_, value) :: rest => value.mentions place inPrompt + entriesMentions place inPrompt rest

def configMentions (place : Place) : Option (List (String × Expr)) → Multiset Mention
  | none => 0
  | some entries => entriesMentions place true entries

def chainMentions (place : Place) (inPrompt : Bool) : List Step → Multiset Mention
  | [] => 0
  | .property _ :: rest => chainMentions place inPrompt rest
  | .index index :: rest => index.mentions place inPrompt + chainMentions place inPrompt rest
  | .method _ arguments :: rest =>
    listMentions place inPrompt arguments + chainMentions place inPrompt rest

end

end Expr

namespace Node

mutual

/-- The literals and names of a node that stands at a place. -/
def mentions (place : Place) : Node → Multiset Mention
  | .expr value => value.mentions setting place false
  | .parameter own => of place false [.name own.name]
  | .function name parameters body _ _ =>
    of place false [.name name] + of place.inside false (parameters.map fun p => .name p.name) +
      listMentions place.inside body
  | .graphNode name parameters body _ _ =>
    of place false [.name name] +
      of (setting.nodePlace place) false (parameters.map fun p => .name p.name) +
      listMentions (setting.nodePlace place) body
  | .goto target arguments =>
    of place false (setting.plainNames [target]) + Expr.listMentions setting place false arguments
  | .assign name _ value => of place false [.name name] + value.mentions place
  | .ret none => 0
  | .ret (some value) => value.mentions setting place false
  | .ifElse condition thenBody elseBody =>
    condition.mentions setting place false + listMentions place.inside thenBody +
      otherwiseMentions place elseBody
  | .loop condition body =>
    condition.mentions setting place false + listMentions place.inside body
  | .select subject arms => subject.mentions setting place false + armsMentions place false arms
  | .thread _ body => listMentions place.inside body
  | .special _ value => value.mentions setting place false
  | .timed body _ => listMentions place body
  | .importNames kind names _ => of place false ((kind.bound names).map .name)
  | .importNodes names _ => of place false (setting.plainNames names)
  | .importTools names _ => of place false (names.map .name)
  | _ => 0

def listMentions (place : Place) : List Node → Multiset Mention
  | [] => 0
  | first :: rest => first.mentions place + listMentions place rest

/-- A single branching in the last place continues the chain at its place. -/
def otherwiseMentions (place : Place) : Option (List Node) → Multiset Mention
  | none => 0
  | some [.ifElse condition thenBody elseBody] =>
    condition.mentions setting place false + listMentions place.inside thenBody +
      otherwiseMentions place elseBody
  | some nodes => listMentions place.inside nodes

/-- What is left over stands in a block only if something is tested before it. -/
def armsMentions (place : Place) (tested : Bool) : List Arm → Multiset Mention
  | [] => 0
  | .comment _ :: arms => armsMentions place tested arms
  | .arm none body :: _ => body.mentions (if tested then place.inside else place)
  | .arm (some value) body :: arms =>
    value.mentions setting place false + body.mentions place.inside + armsMentions place true arms

end

/-- The literals and names of a node of the top level around a graph. The node that is made of a
function refers to it. -/
def partMentions (n : Node) : Multiset Mention :=
  n.mentions setting (if n.isStep then .graph else .top) +
    of .graph false ((Declared.functionName? n).toList.map .name)

end Node

/-- The literals and names of a program, each with the place where it is emitted. -/
def Program.mentions (program : Program) (backend : Backend) : Multiset Mention :=
  match backend with
  | .script => Node.listMentions (program.setting .script) .top program.nodes
  | .graph => (program.nodes.map (Node.partMentions (program.setting .graph))).sum

namespace Compile

open Target (Choice Code Link PromptFunction Section Stmt)
open Target.Stmt (listMentions_append listMentions_leaf)

variable {setting : Setting}

/-! ### Expressions -/

theorem items_routed (name : String) (codes : List Code) :
    (setting.routed name codes).items = setting.callee name ++ Code.listItems codes := by
  unfold Setting.routed Setting.callee
  split <;> rfl

mutual

theorem ExprBecomes.mentions (h : ExprBecomes setting n e functions code n') (place : Place)
    (inPrompt : Bool) :
    e.mentions setting place inPrompt =
      of place inPrompt code.items + Stmt.listMentions place (functions.map .prompt) := by
  match h with
  | .number _ | .boolean _ => rfl
  | .string _ | .multiline _ | .name _ => exact (add_zero _).symm
  | .prompt segments schema tools hconfig =>
    rw [Expr.mentions, hconfig.mentions place, map_append, listMentions_append,
      map_singleton, Stmt.listMentions_prompt, Code.items]
    abel
  | .access hbase hchain =>
    rw [Expr.mentions, hbase.mentions place, hchain.mentions place, map_append,
      listMentions_append, Code.items, of_append]
    abel
  | .array hitems => exact hitems.mentions place inPrompt
  | .object hentries => exact hentries.mentions place inPrompt
  | .call function harguments =>
    rw [Expr.mentions, harguments.mentions place, items_routed, of_append]
    abel
  | .binary op hleft hright =>
    rw [Expr.mentions, hleft.mentions place, hright.mentions place, map_append,
      listMentions_append, Code.items, of_append]
    abel

theorem ExprsBecome.mentions (h : ExprsBecome setting n es functions codes n') (place : Place)
    (inPrompt : Bool) :
    Expr.listMentions setting place inPrompt es =
      of place inPrompt (Code.listItems codes) +
        Stmt.listMentions place (functions.map .prompt) := by
  match h with
  | .nil => rfl
  | .cons hfirst hrest =>
    rw [Expr.listMentions, hfirst.mentions place, hrest.mentions place, map_append,
      listMentions_append, Code.listItems, of_append]
    abel

theorem EntriesBecome.mentions (h : EntriesBecome setting n entries functions codes n')
    (place : Place) (inPrompt : Bool) :
    Expr.entriesMentions setting place inPrompt entries =
      of place inPrompt (Code.entriesItems codes) +
        Stmt.listMentions place (functions.map .prompt) := by
  match h with
  | .nil => rfl
  | .cons _ hvalue hrest =>
    rw [Expr.entriesMentions, hvalue.mentions place, hrest.mentions place, map_append,
      listMentions_append, Code.entriesItems, of_append]
    abel

theorem ConfigBecomes.mentions (h : ConfigBecomes setting n config functions codes n')
    (place : Place) :
    Expr.configMentions setting place config =
      of place true (Code.configItems codes) + Stmt.listMentions place (functions.map .prompt) := by
  match h with
  | .none => rfl
  | .some hentries => exact hentries.mentions place true

theorem ChainBecomes.mentions {links : List Link}
    (h : ChainBecomes setting n chain functions links n') (place : Place) (inPrompt : Bool) :
    Expr.chainMentions setting place inPrompt chain =
      of place inPrompt (Code.linksItems links) +
        Stmt.listMentions place (functions.map .prompt) := by
  match h with
  | .nil => rfl
  | .property _ hrest => exact hrest.mentions place inPrompt
  | .index hvalue hrest =>
    rw [Expr.chainMentions, hvalue.mentions place, hrest.mentions place, map_append,
      listMentions_append, Code.linksItems, of_append]
    abel
  | .method _ harguments hrest =>
    rw [Expr.chainMentions, harguments.mentions place, hrest.mentions place, map_append,
      listMentions_append, Code.linksItems, of_append]
    abel

end

/-! ### Nodes -/

theorem listMentions_gotoStmt (h : gotoStmt setting target codes s = (.ok stmt, s')) (place : Place) :
    Stmt.listMentions place [stmt] =
      of place false (setting.plainNames [target]) + of place false (Code.listItems codes) := by
  rw [Setting.plainNames, ← of_append]
  obtain ⟨hbackend, rfl | rfl⟩ | ⟨hbackend, rfl | ⟨handOn, rfl⟩⟩ := gotoStmt_ok h <;>
  · rw [hbackend]
    exact listMentions_leaf place rfl rfl rfl

theorem listMentions_retStmt (h : retStmt setting value s = (.ok stmt, s')) (place : Place) :
    Stmt.listMentions place [stmt] = of place false (Code.optionItems value) := by
  obtain rfl | rfl | rfl := retStmt_ok h <;> exact listMentions_leaf place rfl rfl rfl

theorem listMentions_importStmt (h : importStmt kind names path s = (.ok stmt, s')) (place : Place) :
    Stmt.listMentions place [stmt] = of place false ((kind.bound names).map .name) := by
  unfold importStmt at h
  split at h
  · cases h
    exact listMentions_leaf place rfl rfl rfl
  · exact absurd h (Build.fails_fail _ s stmt s')
  · next shortName rest hkind =>
    cases h
    rw [listMentions_leaf place rfl rfl rfl]
    cases kind with
    | named => exact absurd rfl hkind
    | whole | main => rfl

theorem listMentions_importNodesStmt (names : List String) (path : String) (place : Place) :
    Stmt.listMentions place [importNodesStmt setting names path] =
      of place false (setting.plainNames names) := by
  unfold importNodesStmt Setting.plainNames
  cases setting.backend <;> exact listMentions_leaf place rfl rfl rfl

theorem listMentions_unpack (parameters : List Parameter) (place : Place) :
    Stmt.listMentions place
        (if parameters.isEmpty then [] else [.unpack (parameters.map (·.name))]) =
      of place false (parameters.map fun p => .name p.name) := by
  cases parameters with
  | nil => rfl
  | cons parameter rest =>
    rw [if_neg (by simp), listMentions_leaf place rfl rfl rfl, Stmt.items, map_map]
    rfl

theorem listMentions_closing (leaves : Bool) (place : Place) :
    Stmt.listMentions place (if leaves then [] else [.retState]) = 0 := by
  cases leaves with
  | true => rfl
  | false =>
    rw [if_neg Bool.false_ne_true, listMentions_leaf place rfl rfl rfl]
    rfl

mutual

theorem NodeBecomes.mentions (h : NodeBecomes setting n first functions stmts n') (place : Place) :
    first.mentions setting place =
      Stmt.listMentions place stmts + Stmt.listMentions place (functions.map .prompt) := by
  match h with
  | .expr hvalue | .setModel hvalue | .setMessages hvalue =>
    rw [listMentions_leaf place rfl rfl rfl]
    exact hvalue.mentions place false
  | .parameter _ _ | .comment _ =>
    rw [listMentions_leaf place rfl rfl rfl]
    rfl
  | .function shown _ hshown hinner =>
    rw [Node.mentions, hinner.mentions, Stmt.listMentions_define, hshown, map_map]
    exact (add_zero _).symm
  | .plainNode shown _ hshown hbackend hinner =>
    rw [Node.mentions, Setting.nodePlace, hbackend, hinner.mentions, Stmt.listMentions_define,
      hshown, map_map]
    exact (add_zero _).symm
  | .graphNode hbackend hinner =>
    rw [Node.mentions, Setting.nodePlace, hbackend, hinner.mentions, Stmt.listMentions_defineNode,
      listMentions_append, listMentions_append, listMentions_unpack,
      listMentions_closing, add_zero, ← add_assoc]
    exact (add_zero _).symm
  | .goto harguments hstmt =>
    rw [Node.mentions, harguments.mentions, listMentions_gotoStmt hstmt]
    abel
  | .uses _ | .newline => rfl
  | .assign _ _ _ hvalue =>
    rw [Node.mentions, Node.mentions, hvalue.mentions, listMentions_leaf place rfl rfl rfl,
      ← add_assoc, ← of_append]
    rfl
  | .assignParameter _ _ _ _ _ =>
    rw [Node.mentions, listMentions_leaf place rfl rfl rfl]
    exact (add_zero _).symm
  | .assignThread _ _ _ hinner =>
    rw [Node.mentions, Node.mentions, hinner.mentions, Stmt.listMentions_thread]
    exact (add_zero _).symm
  | .assignTimed _ _ _ hinner =>
    rw [Node.mentions, Node.mentions, hinner.mentions, Stmt.listMentions_timed]
    exact (add_zero _).symm
  | .retNothing hstmt =>
    rw [listMentions_retStmt hstmt]
    rfl
  | .ret hvalue hstmt =>
    rw [listMentions_retStmt hstmt]
    exact hvalue.mentions place false
  | .hint name type typeCode =>
    cases typeCode with
    | none => rfl
    | some code =>
      change 0 = Stmt.listMentions place [.annotate name code] + 0
      rw [listMentions_leaf place rfl rfl rfl]
      rfl
  | .ifElse hcondition hthen helse =>
    rw [Node.mentions, hcondition.mentions, hthen.mentions, helse.mentions,
      Stmt.listMentions_ifChain, Stmt.branchMentions_cons, map_append,
      listMentions_append]
    abel
  | .loop hcondition hinner =>
    rw [Node.mentions, hcondition.mentions, hinner.mentions, Stmt.listMentions_loop]
    abel
  | .select hsubject harms =>
    rw [Node.mentions, hsubject.mentions, harms.mentions place false, Stmt.listMentions_select,
      map_append, listMentions_append, Bool.false_or]
    abel
  | .thread _ hinner =>
    rw [Node.mentions, hinner.mentions, Stmt.listMentions_thread]
    simp
  | .timed _ hinner =>
    rw [Node.mentions, hinner.mentions, Stmt.listMentions_timed]
    simp
  | .importNames hstmt =>
    rw [listMentions_importStmt hstmt]
    exact (add_zero _).symm
  | .importNodes names path =>
    rw [listMentions_importNodesStmt]
    exact (add_zero _).symm
  | .importTools _ _ =>
    rw [listMentions_leaf place rfl rfl rfl]
    exact (add_zero _).symm
  | .blockComment _ =>
    rw [Stmt.listMentions_notes]
    rfl

theorem BodyBecomes.mentions (h : BodyBecomes setting n nodes stmts n') (place : Place) :
    Node.listMentions setting place nodes = Stmt.listMentions place stmts := by
  match h with
  | .nil => rfl
  | .newline afterLineEnd hrest =>
    rw [Node.listMentions, hrest.mentions]
    split
    · rw [Stmt.listMentions_cons, listMentions_leaf place rfl rfl rfl]
      rfl
    · exact zero_add _
  | .cons hfirst hrest =>
    rw [Node.listMentions, hfirst.mentions, hrest.mentions, listMentions_append,
      listMentions_append]
    abel

theorem ElseBecomes.mentions (h : ElseBecomes setting n other functions branches otherwise n')
    (place : Place) :
    Node.otherwiseMentions setting place other = Stmt.branchMentions place branches +
      Stmt.otherwiseMentions place.inside otherwise +
        Stmt.listMentions place (functions.map .prompt) := by
  match h with
  | .none => rfl
  | .chain hcondition hthen helse =>
    rw [Node.otherwiseMentions, hcondition.mentions, hthen.mentions, helse.mentions,
      Stmt.branchMentions_cons, map_append, listMentions_append]
    abel
  | .last hlast hnodes =>
    rw [Node.otherwiseMentions, hnodes.mentions]
    · simp
    · exact hlast

theorem ArmsBecome.mentions {choices : List Choice}
    (h : ArmsBecome setting n arms functions choices otherwise n') (place : Place) (tested : Bool) :
    Node.armsMentions setting place tested arms = Stmt.choiceMentions place choices +
      Stmt.otherwiseMentions (if tested || choices.any Choice.isCase then place.inside else place)
        otherwise + Stmt.listMentions place (functions.map .prompt) := by
  match h with
  | .nil => rfl
  | .comment _ hrest => exact hrest.mentions place tested
  | .left _ hinner =>
    rw [Node.armsMentions, hinner.mentions]
    simp [add_comm]
  | .arm hvalue hinner hrest =>
    rw [Node.armsMentions, hvalue.mentions, hinner.mentions, hrest.mentions place true,
      Stmt.choiceMentions_case, listMentions_append, map_append, listMentions_append,
      any_cons, Choice.isCase, Bool.true_or, Bool.or_true]
    abel

end

/-! ### Sections -/

theorem partMentions_step {n : Node} (h : n.isStep) :
    n.partMentions setting = n.mentions setting .graph := by
  rw [Node.partMentions, if_pos h]
  cases n with
  | function => exact absurd h Bool.false_ne_true
  | _ => exact add_zero _

theorem partMentions_outside (h : staysOutside n) :
    n.partMentions setting = n.mentions setting .top := by
  cases n with
  | comment | blockComment | importNames | importNodes | importTools | hint | uses =>
    exact add_zero _
  | _ => exact absurd h Bool.false_ne_true

theorem NodeBecomes.mentions_statements (h : NodeBecomes setting n first functions stmts n') :
    ((Section.statements (functions.map .prompt ++ stmts)).mentions : Multiset Mention) =
      first.mentions setting .top := by
  rw [Section.mentions_statements, h.mentions, listMentions_append, add_comm]

theorem PartBecomes.mentions {n n' : Nat} {first : Node} {group : List Section}
    (h : PartBecomes setting n first group n') :
    first.partMentions setting = (group.flatMap Section.mentions : List Mention) := by
  cases h with
  | newline => rfl
  | function h =>
    rw [flatMap_cons, ← Multiset.coe_add, h.mentions_statements]
    rfl
  | graphNode h =>
    rw [flatMap_cons, ← Multiset.coe_add, h.mentions_statements]
    split <;> rfl
  | outside houtside h =>
    rw [flatMap_singleton, h.mentions_statements, partMentions_outside houtside]
  | value _ _ h =>
    rw [flatMap_singleton, Section.mentions_step, listMentions_append,
      Stmt.listMentions_cons, listMentions_leaf .graph rfl rfl rfl,
      listMentions_leaf .graph rfl rfl rfl, partMentions_step rfl, Node.mentions, h.mentions]
    simp only [Stmt.items, of_nil, add_zero]
    exact add_comm _ _
  | step _ hstep h =>
    rw [flatMap_singleton, Section.mentions_step, listMentions_append,
      listMentions_append, listMentions_closing, add_zero, partMentions_step hstep, h.mentions,
      add_comm]

theorem PartsBecome.mentions {sections : List Section} (h : PartsBecome setting n nodes sections n') :
    (nodes.map (Node.partMentions setting)).sum =
      (sections.flatMap Section.mentions : List Mention) := by
  induction h with
  | nil => rfl
  | cons hfirst _ ih =>
    rw [map_cons, sum_cons, hfirst.mentions, ih, flatMap_append, Multiset.coe_add]

end Compile

theorem Program.mentions_of_compile {program : Program} {options : CompileOptions}
    {compiled : Compiled} (h : program.compile options = .ok compiled) :
    program.mentions options.backend = compiled.module.mentions := by
  have hbecomes := (becomes_of_compile h).1
  unfold Target.Module.mentions
  generalize compiled.module.sections = sections at hbecomes
  cases hbecomes with
  | script hbackend hbody =>
    have hscript : options.backend = .script := hbackend
    rw [hscript] at hbody ⊢
    rw [flatMap_singleton, Target.Section.mentions_statements]
    exact hbody.mentions .top
  | graph hbackend hparts =>
    have hgraph : options.backend = .graph := hbackend
    rw [hgraph] at hparts ⊢
    exact hparts.mentions

end AgentLang
