import AgentLang.Proofs.Compile.Calls
import AgentLang.Proofs.Compile.Leads

/-!
# Functions for prompts are defined ahead

The functions that a statement needs for its prompts stand directly ahead of it, in the body that it
belongs to. Each of them only calls earlier ones. So every call that asks a prompt comes behind the
definition of its function, in the same body.
-/

namespace AgentLang.Compile

open List
open Target (Call Choice Code Link PromptFunction Section Site Stmt Tally)
open Target.Stmt (here listSites branchSites otherwiseSites choiceSites)
open Target.Tally (ofCalls)

variable {setting : Setting}

theorem prompt_notMem_route (index : Nat) (arguments : List String) (called : Called) :
    Call.prompt index arguments ∉ setting.route called := by
  cases called with
  | function | node =>
    rw [Setting.route]
    split <;> simp

theorem prompts_tally (functions : List PromptFunction) :
    (Stmt.tally (functions.map .prompt)).prompts = functions := by
  rw [Stmt.tally, Stmt.listParts_prompts, Stmt.filterMap_prompt?_prompts]

namespace Accounts

variable {n n' : Nat} {called : List Called} {tally : Tally}

/-- A prompt is only asked by a call of a function that is defined for it. -/
theorem asked (h : Accounts setting n called tally n')
    (hcall : .prompt index arguments ∈ tally.calls) :
    .prompt index arguments ∈ tally.prompts.map PromptFunction.call := by
  rw [h.calls, Multiset.mem_add] at hcall
  rcases hcall with hcall | hcall
  · obtain ⟨call, -, hroute⟩ := mem_flatMap.mp (Multiset.mem_coe.mp hcall)
    exact absurd hroute (prompt_notMem_route index arguments call)
  · exact hcall

theorem defined_here {calls : List Call}
    (h : Accounts setting n called (ofCalls calls + Stmt.tally (functions.map .prompt)) n')
    (hknown : functions ⊆ known) : ∀ site ∈ here known calls, site.Defined := by
  intro site hsite index arguments hprompt
  obtain ⟨call, hcall, rfl⟩ := mem_map.mp hsite
  obtain rfl : call = .prompt index arguments := hprompt
  have hasked := h.asked (Multiset.mem_add.mpr (.inl (Multiset.mem_coe.mpr hcall)))
  obtain ⟨f, hf, hcall⟩ := Multiset.mem_map.mp hasked
  rw [Target.Tally.prompts_add, prompts_tally] at hf
  have hmem : f ∈ functions := by simpa [ofCalls] using hf
  rw [← hcall]
  exact mem_map_of_mem (hknown hmem)

end Accounts

/-! ### Functions in order -/

/-- Each of the functions only calls earlier ones, whatever is known besides. -/
def Ordered (functions : List PromptFunction) : Prop :=
  ∀ known, ∀ site ∈ listSites known (functions.map .prompt), site.Defined

theorem ordered_nil : Ordered [] := nofun

theorem Ordered.append (h : Ordered functions) (h' : Ordered later) :
    Ordered (functions ++ later) := by
  intro known site hsite
  rw [map_append, Stmt.listSites_append, Stmt.filterMap_prompt?_prompts] at hsite
  rcases mem_append.mp hsite with hsite | hsite
  · exact h known site hsite
  · exact h' (known ++ functions) site hsite

mutual

theorem ExprBecomes.ordered (h : ExprBecomes setting n e functions code n') :
    Ordered functions := by
  match h with
  | .number _ | .string _ | .multiline _ | .boolean _ | .name _ => exact ordered_nil
  | .prompt segments schema tools hconfig =>
    intro known site hsite
    rw [map_append, Stmt.listSites_append, Stmt.filterMap_prompt?_prompts] at hsite
    rcases mem_append.mp hsite with hsite | hsite
    · exact hconfig.ordered known site hsite
    · rw [map_singleton, listSites, listSites, append_nil] at hsite
      exact hconfig.accounts.defined_here (subset_append_right ..) site hsite
  | .access hbase hchain => exact hbase.ordered.append hchain.ordered
  | .array hitems => exact hitems.ordered
  | .object hentries => exact hentries.ordered
  | .call _ harguments => exact harguments.ordered
  | .binary _ hleft hright => exact hleft.ordered.append hright.ordered

theorem ExprsBecome.ordered (h : ExprsBecome setting n es functions codes n') :
    Ordered functions := by
  match h with
  | .nil => exact ordered_nil
  | .cons hfirst hrest => exact hfirst.ordered.append hrest.ordered

theorem EntriesBecome.ordered (h : EntriesBecome setting n entries functions codes n') :
    Ordered functions := by
  match h with
  | .nil => exact ordered_nil
  | .cons _ hvalue hrest => exact hvalue.ordered.append hrest.ordered

theorem ConfigBecomes.ordered (h : ConfigBecomes setting n config functions codes n') :
    Ordered functions := by
  match h with
  | .none => exact ordered_nil
  | .some hentries => exact hentries.ordered

theorem ChainBecomes.ordered {links : List Link}
    (h : ChainBecomes setting n chain functions links n') : Ordered functions := by
  match h with
  | .nil => exact ordered_nil
  | .property _ hrest => exact hrest.ordered
  | .index hvalue hrest => exact hvalue.ordered.append hrest.ordered
  | .method _ harguments hrest => exact harguments.ordered.append hrest.ordered

end

/-! ### Statements behind functions -/

/-- The functions are in order, and behind them all that is asked at the sites is defined. -/
structure Visible (functions : List PromptFunction) (sites : List PromptFunction → List Site) :
    Prop where
  ordered : Ordered functions
  defined : ∀ known, functions ⊆ known → ∀ site ∈ sites known, site.Defined

namespace Visible

variable {functions later : List PromptFunction} {sites others : List PromptFunction → List Site}

theorem append (h : Visible functions sites) (h' : Visible later others) :
    Visible (functions ++ later) fun known => sites known ++ others known where
  ordered := h.ordered.append h'.ordered
  defined known hknown site hsite := by
    obtain ⟨hfunctions, hlater⟩ := append_subset.mp hknown
    rcases mem_append.mp hsite with hsite | hsite
    · exact h.defined known hfunctions site hsite
    · exact h'.defined known hlater site hsite

theorem of_eq (h : Visible functions sites) (heq : ∀ known, others known = sites known) :
    Visible functions others where
  ordered := h.ordered
  defined known hknown site hsite := h.defined known hknown site (heq known ▸ hsite)

theorem nothing : Visible [] fun _ => [] := ⟨ordered_nil, nofun⟩

theorem body (h : Visible functions (listSites · stmts)) :
    Visible [] (listSites · (functions.map .prompt ++ stmts)) where
  ordered := ordered_nil
  defined known _ site hsite := by
    rw [Stmt.listSites_append, Stmt.filterMap_prompt?_prompts] at hsite
    rcases mem_append.mp hsite with hsite | hsite
    · exact h.ordered known site hsite
    · exact h.defined _ (subset_append_right ..) site hsite

theorem seq (h : Visible [] (listSites · stmts)) (h' : Visible [] (listSites · more)) :
    Visible [] (listSites · (stmts ++ more)) where
  ordered := ordered_nil
  defined known _ site hsite := by
    rw [Stmt.listSites_append] at hsite
    rcases mem_append.mp hsite with hsite | hsite
    · exact h.defined known (nil_subset _) site hsite
    · exact h'.defined _ (nil_subset _) site hsite

/-- A definition has a body of its own. -/
theorem definition (h : Visible [] (listSites · stmts))
    (hsites : ∀ known, stmt.sites known = listSites [] stmts) :
    Visible [] (listSites · [stmt]) where
  ordered := ordered_nil
  defined known _ site hsite := by
    rw [listSites, hsites, listSites, append_nil] at hsite
    exact h.defined [] (nil_subset _) site hsite

theorem leaf (hleaf : stmt.Leaf calls) (h : Visible functions (here · calls)) :
    Visible functions (listSites · [stmt]) :=
  h.of_eq fun known => by rw [listSites, hleaf.sites, listSites, append_nil]

end Visible

theorem ExprBecomes.visible (h : ExprBecomes setting n e functions code n') :
    Visible functions (here · code.calls) :=
  ⟨h.ordered, fun _ hknown => h.accounts.defined_here hknown⟩

theorem ExprsBecome.visible (h : ExprsBecome setting n es functions codes n') :
    Visible functions (here · (Code.listCalls codes)) :=
  ⟨h.ordered, fun _ hknown => h.accounts.defined_here hknown⟩

theorem visible_route (called : Called) : Visible [] (here · (setting.route called)) where
  ordered := ordered_nil
  defined known _ site hsite index arguments hprompt := by
    obtain ⟨call, hcall, rfl⟩ := mem_map.mp hsite
    obtain rfl : call = .prompt index arguments := hprompt
    exact absurd hcall (prompt_notMem_route index arguments called)

theorem visible_plain (h : stmt.Leaf []) : Visible [] (listSites · [stmt]) :=
  .leaf h (.of_eq .nothing fun _ => rfl)

theorem visible_if {p : Prop} [Decidable p] (h : stmt.Leaf []) :
    Visible [] (listSites · (if p then [] else [stmt])) := by
  split
  · exact .of_eq .nothing fun _ => rfl
  · exact visible_plain h

theorem visible_notes (lines : List String) : Visible [] (listSites · (lines.map .note)) := by
  induction lines with
  | nil => exact .of_eq .nothing fun _ => rfl
  | cons line rest ih =>
    have hline : (Stmt.note line).Leaf [] := ⟨fun _ => rfl, rfl, rfl, rfl⟩
    exact (visible_plain hline).seq ih

mutual

theorem NodeBecomes.visible (h : NodeBecomes setting n first functions stmts n') :
    Visible functions (listSites · stmts) := by
  match h with
  | .expr hvalue | .assign _ _ _ hvalue | .setModel hvalue | .setMessages hvalue =>
    exact .leaf ⟨fun _ => rfl, rfl, rfl, rfl⟩ hvalue.visible
  | .parameter _ _ | .assignParameter _ _ _ _ _ | .importTools _ _ | .comment _ =>
    exact visible_plain ⟨fun _ => rfl, rfl, rfl, rfl⟩
  | .function _ _ _ hinner | .plainNode _ _ _ _ hinner =>
    exact hinner.visible.definition fun _ => rfl
  | .graphNode _ hinner =>
    refine Visible.definition (.seq (.seq (visible_if ?_) hinner.visible) (visible_if ?_))
      fun _ => rfl
    · exact ⟨fun _ => rfl, rfl, rfl, rfl⟩
    · exact ⟨fun _ => rfl, rfl, rfl, rfl⟩
  | .goto harguments hstmt =>
    refine .leaf (gotoStmt_leaf hstmt) ?_
    exact ((visible_route _).append harguments.visible).of_eq fun known => map_append
  | .uses _ | .newline => exact .of_eq .nothing fun _ => rfl
  | .assignThread _ _ _ hinner | .assignTimed _ _ _ hinner | .thread _ hinner | .timed _ hinner =>
    exact hinner.visible.of_eq fun known => append_nil _
  | .retNothing hstmt => exact visible_plain (retStmt_leaf hstmt)
  | .ret hvalue hstmt => exact .leaf (retStmt_leaf hstmt) hvalue.visible
  | .hint name type typeCode =>
    cases typeCode with
    | none => exact .of_eq .nothing fun _ => rfl
    | some code => exact visible_plain ⟨fun _ => rfl, rfl, rfl, rfl⟩
  | .ifElse hcondition hthen helse =>
    refine (hcondition.visible.append (hthen.visible.append helse.visible)).of_eq fun known => ?_
    simp [listSites, Stmt.sites, branchSites]
  | .loop hcondition hinner =>
    have hall := hcondition.visible.append hinner.visible
    rw [append_nil] at hall
    exact hall.of_eq fun known => append_nil _
  | .select hsubject harms =>
    refine (hsubject.visible.append harms.visible).of_eq fun known => ?_
    simp [listSites, Stmt.sites]
  | .importNames hstmt => exact visible_plain (importStmt_leaf hstmt)
  | .importNodes names path => exact visible_plain (importNodesStmt_leaf names path)
  | .blockComment _ => exact visible_notes _

theorem BodyBecomes.visible (h : BodyBecomes setting n nodes stmts n') :
    Visible [] (listSites · stmts) := by
  match h with
  | .nil => exact .of_eq .nothing fun _ => rfl
  | .newline afterLineEnd hrest =>
    have hblank : Stmt.Leaf .blank [] := ⟨fun _ => rfl, rfl, rfl, rfl⟩
    split
    · exact (visible_plain hblank).seq hrest.visible
    · exact hrest.visible
  | .cons hfirst hrest => exact hfirst.visible.body.seq hrest.visible

theorem ElseBecomes.visible (h : ElseBecomes setting n other functions branches otherwise n') :
    Visible functions fun known =>
      branchSites known branches ++ otherwiseSites known otherwise := by
  match h with
  | .none => exact .of_eq .nothing fun _ => rfl
  | .chain hcondition hthen helse =>
    refine (hcondition.visible.append (hthen.visible.append helse.visible)).of_eq fun known => ?_
    simp [branchSites]
  | .last _ hnodes => exact hnodes.visible

theorem ArmsBecome.visible {choices : List Choice}
    (h : ArmsBecome setting n arms functions choices otherwise n') :
    Visible functions fun known => choiceSites known choices ++ otherwiseSites known otherwise := by
  match h with
  | .nil => exact .of_eq .nothing fun _ => rfl
  | .comment _ hrest => exact hrest.visible
  | .left _ hinner => exact hinner.visible.body
  | .arm hvalue hinner hrest =>
    refine (hvalue.visible.append (hinner.visible.body.append hrest.visible)).of_eq fun known => ?_
    simp [choiceSites]

end

/-! ### Sections -/

theorem Visible.all (h : Visible functions (listSites · stmts)) :
    ∀ site ∈ listSites [] (functions.map .prompt ++ stmts), site.Defined :=
  h.body.defined [] (nil_subset _)

theorem PartBecomes.defined (h : PartBecomes setting n first group n') :
    ∀ part ∈ group, ∀ site ∈ part.sites, site.Defined := by
  intro part hpart
  cases h with
  | newline => exact nomatch hpart
  | function h =>
    rcases mem_cons.mp hpart with rfl | hpart
    · exact h.visible.all
    · obtain rfl := List.mem_singleton.mp hpart
      intro site hsite index arguments hprompt
      obtain rfl := List.mem_singleton.mp hsite
      exact nomatch hprompt
  | graphNode h =>
    rcases mem_cons.mp hpart with rfl | hpart
    · exact h.visible.all
    · split at hpart
      · obtain rfl := List.mem_singleton.mp hpart
        exact nofun
      · exact nomatch hpart
  | outside _ h =>
    obtain rfl := List.mem_singleton.mp hpart
    exact h.visible.all
  | value _ _ h =>
    obtain rfl := List.mem_singleton.mp hpart
    refine (h.visible.of_eq fun known => ?_).all
    simp [listSites, Stmt.sites]
  | step _ _ h =>
    obtain rfl := List.mem_singleton.mp hpart
    have hclosing : Stmt.Leaf .retState [] := ⟨fun _ => rfl, rfl, rfl, rfl⟩
    exact (h.visible.body.seq (visible_if hclosing)).defined [] (nil_subset _)

theorem PartsBecome.defined {sections : List Section} (h : PartsBecome setting n nodes sections n') :
    ∀ part ∈ sections, ∀ site ∈ part.sites, site.Defined := by
  induction h with
  | nil => exact nofun
  | cons hfirst _ ih =>
    intro part hpart
    rcases mem_append.mp hpart with hpart | hpart
    · exact hfirst.defined part hpart
    · exact ih part hpart

theorem SectionsBecome.defined {sections : List Section}
    (h : SectionsBecome setting nodes sections n) :
    ∀ part ∈ sections, ∀ site ∈ part.sites, site.Defined := by
  cases h with
  | script _ h =>
    intro part hpart
    obtain rfl := List.mem_singleton.mp hpart
    exact h.visible.defined [] (nil_subset _)
  | graph _ h => exact h.defined

end AgentLang.Compile

namespace AgentLang.Target

theorem promptName_toList (index : Nat) :
    (Temp.mk .prompt index).toText.toList =
      '_' :: 'p' :: 'r' :: ("ompt_" ++ Nat.repr index).toList := by
  simp [Temp.toText, numbered, Purpose.word]

theorem promptName_inj (h : (Temp.mk .prompt first).toText = (Temp.mk .prompt second).toText) :
    first = second := by
  have hrepr : Nat.repr first = Nat.repr second := by simpa [Temp.toText, numbered] using h
  exact Nat.repr_inj.mp hrepr

theorem Builtin.target_ne (builtin : Builtin) (index : Nat) :
    builtin.target ≠ (Temp.mk .prompt index).toText := by
  intro heq
  have hlist := congrArg String.toList heq
  rw [promptName_toList] at hlist
  cases builtin <;> simp [target, helper?, Helper.name, name] at hlist

theorem name_ne_promptName (h : name.toList.head? ≠ some '_') (index : Nat) :
    name ≠ (Temp.mk .prompt index).toText := by
  rintro rfl
  rw [promptName_toList] at h
  exact h rfl

theorem PromptFunction.text_eq (f : PromptFunction) :
    ∃ rest, template.fill f.arguments =
      "def " ++ (Code.prompt f.index f.parameters).toText ++ ":\n" ++ rest := by
  obtain ⟨rest, hrest⟩ : ∃ rest, template.fill f.arguments =
      "def " ++ (f.name ++ ("(" ++ (commaSeparated f.parameters ++
        ("):\n    prompt = " ++ rest)))) := ⟨_, rfl⟩
  have hcall : (Code.prompt f.index f.parameters).toText =
      f.name ++ "(" ++ commaSeparated f.parameters ++ ")" := rfl
  refine ⟨"    prompt = " ++ rest, ?_⟩
  apply String.toList_inj.mp
  simp [hrest, hcall]

end AgentLang.Target

namespace AgentLang.Compile

open Target (Builtin Call PromptFunction Temp)

variable {setting : Setting}

theorem callee_ne_of_route (hname : called.name.toList.head? ≠ some '_')
    (hcall : call ∈ setting.route called) (index : Nat) :
    call.callee ≠ (Temp.mk .prompt index).toText := by
  have hplain := Target.name_ne_promptName hname index
  cases called with
  | node name =>
    rw [Setting.route] at hcall
    split at hcall
    · obtain rfl := List.mem_singleton.mp hcall
      exact hplain
    · exact absurd hcall List.not_mem_nil
  | function name =>
    obtain rfl := List.mem_singleton.mp hcall
    split
    · have hinvoke : "graph.invoke".toList.head? ≠ some '_' := by decide
      exact Target.name_ne_promptName hinvoke index
    · change setting.resolved name ≠ _
      unfold Setting.resolved Builtin.resolve
      split
      · exact hplain
      · cases Builtin.ofName? name with
        | none => exact hplain
        | some builtin => exact builtin.target_ne index

end AgentLang.Compile

namespace AgentLang.Program

open List
open Compile
open Target (Call Code PromptFunction Temp)

theorem filter_eq_singleton {β : Type} [DecidableEq β] {key : α → β} {items : List α} {a : α}
    (hnodup : (items.map key).Nodup) (ha : a ∈ items) :
    items.filter (fun item => key item = key a) = [a] := by
  induction items with
  | nil => exact nomatch ha
  | cons first rest ih =>
    rw [map_cons, nodup_cons] at hnodup
    rcases mem_cons.mp ha with rfl | ha
    · rw [filter_cons_of_pos (by simp)]
      refine congrArg (a :: ·) (filter_eq_nil_iff.mpr fun item hitem hkey => hnodup.1 ?_)
      exact mem_map.mpr ⟨item, hitem, of_decide_eq_true hkey⟩
    · have hkey : key first ≠ key a := fun heq => hnodup.1 (heq ▸ mem_map_of_mem ha)
      rw [filter_cons_of_neg (by simpa using hkey)]
      exact ih hnodup.2 ha

variable {program : Program} {setting : Setting} {module : Target.Module} {n : Nat}

/-- The names of what a program calls, and of the functions of its top level. -/
def calledNames (program : Program) : List String :=
  program.called.map Called.name ++ program.functions

theorem callee_ne_of_called (hnames : ∀ name ∈ program.calledNames, name.toList.head? ≠ some '_')
    (hcall : call ∈ program.called.flatMap setting.route) (index : Nat) :
    call.callee ≠ (Temp.mk .prompt index).toText := by
  obtain ⟨called, hcalled, hroute⟩ := mem_flatMap.mp hcall
  have hname := hnames _ (mem_append_left _ (mem_map_of_mem hcalled))
  exact callee_ne_of_route hname hroute index

theorem callee_ne_of_wrapped (hnames : ∀ name ∈ program.calledNames, name.toList.head? ≠ some '_')
    (hcall : call ∈ (program.wrapped backend).map Call.wrapped) (index : Nat) :
    call.callee ≠ (Temp.mk .prompt index).toText := by
  obtain ⟨name, hname, rfl⟩ := mem_map.mp hcall
  cases backend with
  | script => exact nomatch hname
  | graph => exact Target.name_ne_promptName (hnames _ (mem_append_right _ hname)) index

theorem asks_of_callee (h : SectionsBecome setting program.nodes module.sections n)
    (hnames : ∀ name ∈ program.calledNames, name.toList.head? ≠ some '_')
    (hcall : call ∈ module.calls) (hcallee : call.callee = (Temp.mk .prompt index).toText) :
    ∃ f ∈ module.prompts, f.call = call := by
  obtain ⟨called, hcalled, hroute⟩ | hprompt | ⟨name, hname, rfl⟩ := (mem_calls_iff h).mp hcall
  · have hmem := mem_flatMap.mpr ⟨called, hcalled, hroute⟩
    exact absurd hcallee (callee_ne_of_called hnames hmem index)
  · exact hprompt
  · exact absurd hcallee (callee_ne_of_wrapped hnames (mem_map_of_mem hname) index)

theorem filter_prompts (h : SectionsBecome setting program.nodes module.sections n)
    (hf : f ∈ module.prompts) :
    (module.prompts.map PromptFunction.call).filter (·.callee = f.name) = [f.call] := by
  have hname (g : PromptFunction) : g.call.callee = f.name ↔ g.index = f.index :=
    ⟨Target.promptName_inj, fun hindex => congrArg (fun i => (Temp.mk .prompt i).toText) hindex⟩
  rw [filter_map]
  have hfilter := filter_eq_singleton (indices_nodup h) hf
  simp only [Function.comp_def, hname, hfilter, map_singleton]

/-- A function that is made for a prompt is called once, with its own parameters. -/
theorem filter_calls (h : SectionsBecome setting program.nodes module.sections n)
    (hnames : ∀ name ∈ program.calledNames, name.toList.head? ≠ some '_') (hf : f ∈ module.prompts)
      :
    module.calls.filter (·.callee = f.name) = [f.call] := by
  have hroutes : (program.called.flatMap setting.route).filter (·.callee = f.name) = [] :=
    filter_eq_nil_iff.mpr fun call hcall hcallee =>
      callee_ne_of_called hnames hcall f.index (of_decide_eq_true hcallee)
  have hwrapped : ((program.wrapped setting.backend).map Call.wrapped).filter
      (·.callee = f.name) = [] :=
    filter_eq_nil_iff.mpr fun call hcall hcallee =>
      callee_ne_of_wrapped hnames hcall f.index (of_decide_eq_true hcallee)
  have hall := congrArg (Multiset.filter (·.callee = f.name)) (calls_of_becomes h)
  rw [Multiset.filter_add, Multiset.filter_add, Multiset.filter_coe, Multiset.filter_coe,
    Multiset.filter_coe, Multiset.filter_coe, hroutes, hwrapped, filter_prompts h hf] at hall
  exact perm_singleton.mp (Multiset.coe_eq_coe.mp hall)

end AgentLang.Program
