import AgentLang.Proofs.Compile.Asks
import AgentLang.Proofs.Compile.Record

/-!
# What records say

The record of a step that ends accounts for what the step emits. Its prompts are those of the
emitted code and those that are put ahead of it, its nodes make known the names that the code makes
known, and every prompt takes the tools that are selected for it.
-/

namespace AgentLang.Compile

open List
open Build
open Target (Choice Code PromptFunction Section Stmt)

variable {setting : Setting}

theorem Adds.newPrompts {functions : List PromptFunction} {s s' : State}
    (h : Adds functions s.context.hoisted s'.context.hoisted) : s.newPrompts s' = functions := by
  unfold State.newPrompts
  cases hframes : s.context.hoisted with
  | nil =>
    rw [hframes] at h
    cases hframes' : s'.context.hoisted with
    | nil => exact h.eq_nil.symm
    | cons waiting rest =>
      rw [hframes'] at h
      cases h
  | cons waiting rest =>
    rw [hframes] at h
    rw [h.eq_of_opened, headD_cons, headD_cons, drop_left,
      Stmt.filterMap_prompt?_prompts]

/-! ### Lawful records -/

/-- Behind the given turns, every prompt of the record has the tools that are selected for it. -/
def Lawful : List Turn → List Event → Prop
  | _, [] => True
  | earlier, event :: later =>
    (∀ f ∈ event.prompt?, f.tools = Turn.selected earlier) ∧
      Lawful (earlier ++ event.turn?.toList) later

theorem toList_append_filterMap (event : Event) (log : List Event) :
    event.turn?.toList ++ log.filterMap Event.turn? = (event :: log).filterMap Event.turn? := by
  cases hturn : event.turn? with
  | none => rw [filterMap_cons_none hturn]; rfl
  | some turn => rw [filterMap_cons_some hturn]; rfl

theorem Lawful.append (h : Lawful earlier log)
    (h' : Lawful (earlier ++ log.filterMap Event.turn?) later) : Lawful earlier (log ++ later) := by
  induction log generalizing earlier with
  | nil =>
    rw [filterMap_nil, append_nil] at h'
    exact h'
  | cons event rest ih =>
    rw [← toList_append_filterMap, ← append_assoc] at h'
    exact ⟨h.1, ih h.2 h'⟩

/-- The law at a single prompt. -/
theorem Lawful.tools {after : List Event}
    (h : Lawful earlier (before ++ .prompt f :: after)) :
    f.tools = Turn.selected (earlier ++ before.filterMap Event.turn?) := by
  induction before generalizing earlier with
  | nil =>
    rw [filterMap_nil, append_nil]
    exact h.1 f rfl
  | cons event rest ih =>
    rw [← toList_append_filterMap, ← append_assoc]
    exact ih h.2

theorem Taken.lawful (h : Taken (Turn.selected earlier) functions left) :
    Lawful earlier (functions.map .prompt) ∧
      left = Turn.selected (earlier ++ (functions.map (·.text)).map .asks) := by
  induction functions generalizing earlier with
  | nil =>
    cases h
    exact ⟨trivial, congrArg Turn.selected (append_nil earlier).symm⟩
  | cons f later ih =>
    cases h with
    | next htools h =>
      rw [← Turn.selected_asks earlier f.text] at h
      obtain ⟨hlawful, hleft⟩ := ih h
      rw [append_assoc] at hleft
      refine ⟨⟨?_, hlawful⟩, hleft⟩
      rintro _ ⟨rfl⟩
      exact htools

/-! ### Accounts -/

/-- A record of what happens between two states. Prompts are either put ahead of the current
statement or among the emitted statements. -/
structure Account (s : State) (log : List Event) (turns : List Turn)
    (functions : List PromptFunction) (parts : List Stmt) (s' : State) : Prop where
  hoisted : Adds functions s.context.hoisted s'.context.hoisted
  inOrder : log.filterMap Event.turn? = turns
  balanced : Turn.Balanced turns
  prompts : (log.filterMap Event.prompt?).Perm (functions ++ parts.filterMap Stmt.prompt?)
  names : (log.filterMap Event.node?).filterMap Node.introduces? = parts.filterMap Stmt.introduces?
  tools : ∀ earlier, s.context.pendingTools = Turn.selected earlier →
    Lawful earlier log ∧ s'.context.pendingTools = Turn.selected (earlier ++ turns)

theorem Account.append (h : Account s log turns functions parts middle)
    (h' : Account middle later others functions' parts' s') :
    Account s (log ++ later) (turns ++ others) (functions ++ functions') (parts ++ parts') s' where
  hoisted := h.hoisted.append h'.hoisted
  inOrder := by rw [filterMap_append, h.inOrder, h'.inOrder]
  balanced := h.balanced.append h'.balanced
  prompts := by
    rw [filterMap_append, filterMap_append]
    refine (h.prompts.append h'.prompts).trans ?_
    rw [append_assoc, append_assoc]
    refine List.Perm.append_left functions ?_
    rw [← append_assoc, ← append_assoc]
    exact List.Perm.append_right _ perm_append_comm
  names := by
    rw [filterMap_append, filterMap_append, filterMap_append, h.names, h'.names]
  tools := by
    intro earlier hearlier
    obtain ⟨hlawful, hmiddle⟩ := h.tools earlier hearlier
    obtain ⟨hlater, hlast⟩ := h'.tools _ hmiddle
    rw [← h.inOrder] at hlater
    rw [← append_assoc]
    exact ⟨hlawful.append hlater, hlast⟩

/-- The account of a definition, whose body begins without tools and gives back those before it. -/
theorem Account.definition (h : Account first log turns functions parts last)
    (hfirst : first.context.pendingTools = [])
    (hlast : s'.context.pendingTools = s.context.pendingTools)
    (hframes : first.context.hoisted = s.context.hoisted)
    (hframes' : last.context.hoisted = s'.context.hoisted) :
    Account s (.enters :: log ++ [.leaves]) (.enters :: turns ++ [.leaves]) functions parts s' where
  hoisted := hframes ▸ hframes' ▸ h.hoisted
  inOrder := by simp [Event.turn?, h.inOrder]
  balanced := h.balanced.definition
  prompts := by simpa [filterMap_cons, Event.prompt?] using h.prompts
  names := by simpa [filterMap_cons, Event.node?] using h.names
  tools := by
    intro earlier hearlier
    rw [Turn.selected_definition earlier h.balanced, hlast]
    refine ⟨?_, hearlier⟩
    have hinner : Lawful (earlier ++ [.enters]) log :=
      (h.tools _ (hfirst.trans (Turn.selected_enters earlier).symm)).1
    have hlawful : Lawful earlier (.enters :: log) := ⟨nofun, hinner⟩
    exact hlawful.append ⟨nofun, trivial⟩

theorem State.Asks.account (h : s.Asks functions s') :
    Account s (functions.map .prompt) ((functions.map (·.text)).map .asks) functions [] s' where
  hoisted := h.hoisted
  inOrder := by
    rw [filterMap_map, map_map]
    exact congrFun filterMap_eq_map functions
  balanced := Turn.balanced_asks _
  prompts := by
    rw [filterMap_map, filterMap_nil, append_nil]
    exact .of_eq filterMap_some
  names := by
    rw [Event.filterMap_node?_prompts]
    rfl
  tools := by
    intro earlier hearlier
    have htools := h.tools
    rw [hearlier] at htools
    exact htools.lawful

/-- Statements consist of others and of some around them, which hold no prompts and make these names
known. -/
structure Wraps (names : List (List String)) (parts inner : List Stmt) : Prop where
  prompts : parts.filterMap Stmt.prompt? = inner.filterMap Stmt.prompt?
  names : parts.filterMap Stmt.introduces? = names ++ inner.filterMap Stmt.introduces?

namespace Wraps

variable {names : List (List String)}

theorem refl (parts : List Stmt) : Wraps [] parts parts := ⟨rfl, rfl⟩

theorem single {inner : List Stmt} (hparts : stmt.parts = stmt :: inner)
    (hprompt : stmt.prompt? = none) (hnames : stmt.introduces?.toList = names) :
    Wraps names (Stmt.listParts [stmt]) inner where
  prompts := by rw [Stmt.listParts_singleton, hparts, filterMap_cons_none hprompt]
  names := by
    rw [Stmt.listParts_singleton, hparts, ← hnames]
    cases hstmt : stmt.introduces? with
    | none => exact filterMap_cons_none hstmt
    | some names => exact filterMap_cons_some hstmt

theorem of_shows (h : Shows names stmts) : Wraps names (Stmt.listParts stmts) [] :=
  ⟨h.prompts, h.names.trans (append_nil _).symm⟩

/-- More may be put behind statements. -/
theorem behind (h : Shows [] others) :
    Wraps [] (Stmt.listParts (stmts ++ others)) (Stmt.listParts stmts) where
  prompts := by rw [Stmt.listParts_append, filterMap_append, h.prompts, append_nil]
  names := by
    rw [Stmt.listParts_append, filterMap_append, h.names, append_nil, nil_append]

end Wraps

namespace Recorded

variable {α β : Type} {x : Recorded α} {turns later : List Turn} {Q : α → List Stmt → Prop}
  {R : β → List Stmt → Prop}

/-- Where the step ends, its record accounts for statements that are related to its result. -/
def Emits (x : Recorded α) (turns : List Turn) (Q : α → List Stmt → Prop) : Prop :=
  ∀ s a s', x.run s = (.ok a, s') →
    ∃ functions parts, Q a parts ∧ Account s (x.log s) turns functions parts s'

theorem Emits.mono (h : Emits x turns Q) (hQ : ∀ a parts, Q a parts → S a parts) :
    Emits x turns S := by
  intro s a s' heq
  obtain ⟨functions, parts, ha, haccount⟩ := h s a s' heq
  exact ⟨functions, parts, hQ a parts ha, haccount⟩

theorem Emits.bind (h : Emits x turns Q)
    (hf : ∀ a parts, Q a parts → Emits (f a) later fun b others => R b (parts ++ others)) :
    Emits (x >>= f) (turns ++ later) R := by
  intro s b s' heq
  obtain ⟨a, middle, hx, hrest⟩ := bind_ok heq
  obtain ⟨functions, parts, ha, haccount⟩ := h s a middle hx
  obtain ⟨functions', parts', hb, haccount'⟩ := hf a parts ha middle b s' hrest
  rw [log_bind hx]
  exact ⟨_, _, hb, haccount.append haccount'⟩

theorem log_asking (h : step s = (result, s')) :
    (asking step).log s = (s.newPrompts s').map .prompt := by
  change (s.newPrompts (step s).2).map Event.prompt = _
  rw [h]

theorem emits_asking (h : Asks step texts P) :
    Emits (asking step) (texts.map .asks) fun a parts => P a ∧ parts = [] := by
  intro s a s' heq
  rw [run_asking] at heq
  obtain ⟨ha, functions, rfl, hasks⟩ := h s a s' heq
  rw [log_asking heq, hasks.hoisted.newPrompts]
  exact ⟨functions, [], ⟨ha, rfl⟩, hasks.account⟩

theorem emits_silent (h : Asks step [] P) :
    Emits (silent step) [] fun a parts => P a ∧ parts = [] := by
  intro s a s' heq
  obtain ⟨ha, functions, hnone, hasks⟩ := h s a s' heq
  obtain rfl := map_eq_nil_iff.mp hnone
  exact ⟨[], [], ⟨ha, rfl⟩, hasks.account⟩

theorem emits_pure (h : Q a []) : Emits (pure a) [] Q := by
  refine (emits_silent (asks_pure (P := (· = a)) rfl)).mono ?_
  rintro _ _ ⟨rfl, rfl⟩
  exact h

theorem Emits.then_pure (h : Emits x turns Q)
    (hf : ∀ a parts, Q a parts → ∃ b, f a = pure b ∧ R b parts) : Emits (x >>= f) turns R := by
  rw [← append_nil turns]
  refine h.bind fun a parts ha => ?_
  obtain ⟨b, hb, hparts⟩ := hf a parts ha
  rw [hb]
  refine emits_pure ?_
  rwa [append_nil]

/-- A step whose result is only passed on, with all that is emitted for it. -/
theorem Emits.done {shown : α → List Stmt} {g : α → β}
    (h : Emits x turns fun a parts => parts = shown a) (hR : ∀ a, R (g a) (shown a)) :
    Emits (x >>= fun a => pure (g a)) turns R := by
  refine h.then_pure ?_
  rintro a _ rfl
  exact ⟨_, rfl, hR a⟩

theorem emits_after_silent (h : Asks step [] P) (hf : ∀ a, P a → Emits (f a) turns R) :
    Emits (silent step >>= f) turns R := by
  refine (emits_silent h).bind ?_
  rintro a _ ⟨ha, rfl⟩
  exact hf a ha

theorem emits_after_asking (h : Asks step texts P) (hf : ∀ a, P a → Emits (f a) turns R) :
    Emits (asking step >>= f) (texts.map .asks ++ turns) R := by
  refine (emits_asking h).bind ?_
  rintro a _ ⟨ha, rfl⟩
  exact hf a ha

theorem emits_of_fails (h : Fails x.run) : Emits x turns Q :=
  fun s a s' heq => absurd heq (h s a s')

theorem Emits.shown {shown : α → List Stmt} (h : Emits x turns fun a inner => Wraps [] (shown a) inner) :
    Emits x turns fun a parts => parts = shown a := by
  intro s a s' heq
  obtain ⟨functions, inner, hwraps, haccount⟩ := h s a s' heq
  exact ⟨functions, shown a, rfl, haccount.hoisted, haccount.inOrder, haccount.balanced,
    hwraps.prompts ▸ haccount.prompts, hwraps.names ▸ haccount.names, haccount.tools⟩

/-- The code of a node is put around what is inside of it. -/
theorem Emits.met {shown : α → List Stmt}
    (h : Emits x turns fun a inner => Wraps n.introduces?.toList (shown a) inner)
    (hturn : Event.turn? (.node n) = none) :
    Emits (met n x) turns fun a parts => parts = shown a := by
  intro s a s' heq
  obtain ⟨functions, inner, hwraps, haccount⟩ := h s a s' heq
  refine ⟨functions, shown a, rfl, ?_⟩
  change Account s (.node n :: x.log s) turns functions (shown a) s'
  exact {
    hoisted := haccount.hoisted
    inOrder := by rw [filterMap_cons_none hturn, haccount.inOrder]
    balanced := haccount.balanced
    prompts := by
      rw [filterMap_cons_none rfl, hwraps.prompts]
      exact haccount.prompts
    names := by
      rw [hwraps.names, ← haccount.names]
      cases hn : n.introduces? with
      | none => exact filterMap_cons_none hn
      | some names => exact filterMap_cons_some hn
    tools := by
      intro earlier hearlier
      obtain ⟨hlawful, hlast⟩ := haccount.tools earlier hearlier
      refine ⟨⟨nofun, ?_⟩, hlast⟩
      rw [hturn, Option.toList_none, append_nil]
      exact hlawful }

theorem Emits.collecting (h : Emits x turns Q) :
    Emits (collecting x) turns fun result parts =>
      ∃ inner, Q result.2 inner ∧ parts = Stmt.listParts result.1 ++ inner := by
  intro s a s' heq
  obtain ⟨hoisted, a⟩ := a
  obtain ⟨after, hx, hafter⟩ := collecting_ok heq
  obtain ⟨functions, parts, ha, haccount⟩ := h _ a after hx
  -- Everything that is put ahead of the statement waits in the frame that is opened for it.
  have hframes : after.context.hoisted = functions.map .prompt :: s.context.hoisted :=
    haccount.hoisted.eq_of_opened
  rw [hframes] at hafter
  obtain ⟨hsame, hs'⟩ | ⟨hnone, -, -⟩ := hafter
  · obtain ⟨rfl, hhoisted⟩ := List.cons.inj hsame
    refine ⟨[], functions.map .prompt ++ parts, ⟨parts, ha, ?_⟩, ?_⟩
    · rw [Stmt.listParts_prompts]
    · change Account s (x.log { s with context := s.context.pushHoist }) _ _ _ _
      exact {
        hoisted := by
          rw [← hhoisted]
          exact .refl _
        inOrder := haccount.inOrder
        balanced := haccount.balanced
        prompts := by
          rw [filterMap_append, Stmt.filterMap_prompt?_prompts]
          exact haccount.prompts
        names := by
          rw [filterMap_append, Stmt.filterMap_introduces?_prompts]
          exact haccount.names
        tools := by
          intro earlier hearlier
          rw [hs']
          exact haccount.tools earlier hearlier }
  · exact nomatch hnone

theorem Emits.inScope (scope : Scope) (returns : Option Ty) (h : Emits x turns Q) :
    Emits (inScope scope returns x) turns Q := by
  intro s a s' heq
  rw [run_inScope] at heq
  obtain ⟨after, hx, rfl⟩ := between_ok heq
  obtain ⟨functions, parts, ha, haccount⟩ := h _ a after hx
  exact ⟨functions, parts, ha, haccount.hoisted, haccount.inOrder, haccount.balanced,
    haccount.prompts, haccount.names, haccount.tools⟩

theorem Emits.inDefinition (scope : Scope) (returns : Option Ty) (h : Emits x turns Q) :
    Emits (inDefinition scope returns x) (.enters :: turns ++ [.leaves]) Q := by
  intro s a s' heq
  rw [run_inDefinition, Build.inDefinition] at heq
  obtain ⟨_, hscope, rfl⟩ := between_ok heq
  obtain ⟨after, hx, rfl⟩ := between_ok hscope
  obtain ⟨functions, parts, ha, haccount⟩ := h _ a after hx
  refine ⟨functions, parts, ha, ?_⟩
  exact haccount.definition rfl rfl rfl rfl

end Recorded

open Recorded

/-! ### Nodes without a body -/

theorem emits_leaf (hturn : Event.turn? (.node n) = none)
    (h : Asks (node setting n) texts (Shows n.introduces?.toList)) :
    Emits (met n (asking (node setting n))) (texts.map .asks) fun stmts parts =>
      parts = Stmt.listParts stmts := by
  refine Emits.met ((emits_asking h).mono ?_) hturn
  rintro stmts _ ⟨hshows, rfl⟩
  exact .of_shows hshows

theorem emits_silent_leaf (hturn : Event.turn? (.node n) = none)
    (h : Asks (node setting n) [] (Shows n.introduces?.toList)) :
    Emits (met n (asking (node setting n))) [] fun stmts parts => parts = Stmt.listParts stmts :=
  emits_leaf hturn h

theorem eraseDups_concat (tools : List String) (tool : String) :
    (tools ++ [tool]).eraseDups =
      if tool ∈ tools.eraseDups then tools.eraseDups else tools.eraseDups ++ [tool] := by
  rw [eraseDups_append]
  by_cases h : tool ∈ tools
  · simp [h, List.removeAll]
  · simp [h, List.removeAll]
    rfl

theorem useTools_ok (h : useTools setting tools s = (.ok u, s')) :
    s'.context.hoisted = s.context.hoisted ∧
      ∀ gathered : List String, s.context.pendingTools = gathered.eraseDups →
        s'.context.pendingTools = (gathered ++ tools).eraseDups := by
  induction tools generalizing s with
  | nil =>
    cases h
    exact ⟨rfl, fun gathered hwaiting => by rwa [append_nil]⟩
  | cons tool rest ih =>
    unfold useTools at h
    rw [forM_eq_forM, forM_cons] at h
    obtain ⟨_, middle, hstep, hrest⟩ := bind_ok h
    split at hstep
    · have hmiddle : middle.context = if tool ∈ s.context.pendingTools then s.context
          else s.context.addTool tool := congrArg (·.2.context) hstep.symm
      obtain ⟨hframes, hlast⟩ := ih hrest
      refine ⟨?_, fun gathered hwaiting => ?_⟩
      · rw [hframes, hmiddle]
        split <;> rfl
      · have hadded : middle.context.pendingTools = (gathered ++ [tool]).eraseDups := by
          rw [eraseDups_concat, ← hwaiting, hmiddle]
          split <;> rfl
        rw [hlast _ hadded, append_assoc]
        rfl
    · exact nomatch congrArg Prod.fst hstep

theorem emits_uses (tools : List String) :
    Emits (met (.uses tools) (asking (node setting (.uses tools)))) [.selects tools]
      fun stmts parts => parts = Stmt.listParts stmts := by
  intro s stmts s' heq
  rw [run_met, run_asking] at heq
  have hlog := log_asking heq
  obtain ⟨_, after, huse, hrest⟩ := bind_ok heq
  cases hrest
  obtain ⟨hframes, htools⟩ := useTools_ok huse
  have hadds : Adds [] s.context.hoisted s'.context.hoisted := hframes ▸ .refl _
  rw [hadds.newPrompts] at hlog
  refine ⟨[], [], rfl, ?_⟩
  change Account s (.node (.uses tools) :: (asking _).log s) _ _ _ _
  rw [hlog]
  exact {
    hoisted := hadds
    inOrder := rfl
    balanced := Turn.balanced_selects tools
    prompts := .nil
    names := rfl
    tools := by
      intro earlier hearlier
      rw [Turn.selected_selects]
      exact ⟨⟨nofun, trivial⟩, htools _ hearlier⟩ }

/-! ### Nodes with bodies -/

/-- The statements that are emitted for a chain of branches. -/
def chainParts (chain : List (Code × List Stmt) × Option (List Stmt)) : List Stmt :=
  Stmt.branchParts chain.1 ++ Stmt.otherwiseParts chain.2

/-- The statements that are emitted for the arms of a selection. -/
def armParts (arms : List Choice × Option (List Stmt)) : List Stmt :=
  Stmt.choiceParts arms.1 ++ Stmt.otherwiseParts arms.2

theorem wraps_defineNode (name : String) (parameters : List Parameter) (inner : List Node)
    (stmts : List Stmt) :
    Wraps [[name]]
      (Stmt.listParts [.defineNode name
        ((if parameters.isEmpty then [] else [Stmt.unpack (parameters.map (·.name))]) ++ stmts ++
          if endsInTransfer inner then [] else [Stmt.retState])])
      (Stmt.listParts stmts) where
  prompts := by
    rw [Stmt.listParts_singleton, Stmt.parts, filterMap_cons_none rfl,
      filterMap_graphBody (fun _ => rfl) rfl]
  names := by
    rw [Stmt.listParts_singleton, Stmt.parts, filterMap_cons,
      filterMap_graphBody (fun _ => rfl) rfl]
    rfl

/-- The value of an assignment that is a node with a body shares the statement of the assignment. -/
theorem emits_met_twice (value : Node)
    (h : Emits x turns fun stmts inner => Wraps value.introduces?.toList (Stmt.listParts stmts)
      inner)
    (hnames : n.introduces? = none) (hturn : Event.turn? (.node n) = none)
    (hturn' : Event.turn? (.node value) = none) :
    Emits (met n (met value x)) turns fun stmts parts => parts = Stmt.listParts stmts := by
  refine Emits.met ((h.met hturn').mono ?_) hturn
  rintro stmts _ rfl
  rw [hnames]
  exact .refl _

theorem fails_assign (h : isAssignable value = false) :
    Fails (recordNode setting (.assign name hint value)).run := by
  rw [run_recordNode, node_assign h]
  exact Fails.behind fun _ => Fails.behind fun _ => Fails.behind fun _ => fails_fail _

theorem shows_notes (lines : List String) : Shows [] (lines.map .note) := by
  induction lines with
  | nil => exact ⟨rfl, rfl⟩
  | cons line rest ih => exact ⟨ih.prompts, ih.names⟩

mutual

theorem emits_recordNode (n : Node) :
    Emits (recordNode setting n) n.turns fun stmts parts => parts = Stmt.listParts stmts := by
  cases n with
  | expr value => exact emits_leaf rfl ((asks_expr value).then_pure fun _ _ => ⟨rfl, rfl⟩)
  | parameter parameter =>
    exact emits_silent_leaf rfl
      ((moves_parameterCode parameter).quiet.bind fun _ _ => quiet_pure ⟨rfl, rfl⟩).asks
  | function name parameters inner returns doc =>
    have hinner := (emits_recordBody false inner).inDefinition .function returns
    refine Emits.met ?_ rfl
    refine emits_after_silent (moves_parameterList parameters).quiet.asks fun shown _ => ?_
    refine emits_after_silent (moves_typeCode? returns).quiet.asks fun result _ => ?_
    refine emits_after_silent (asks_storeParameterHints parameters) fun _ _ => ?_
    exact hinner.done fun _ => .single rfl rfl rfl
  | graphNode name parameters inner returns visibility =>
    have hinner := (emits_recordBody false inner).inDefinition .node returns
    refine Emits.met ?_ rfl
    cases setting.backend with
    | script =>
      refine emits_after_silent (moves_parameterList parameters).quiet.asks fun shown _ => ?_
      refine emits_after_silent (moves_typeCode? returns).quiet.asks fun result _ => ?_
      exact hinner.done fun _ => .single rfl rfl rfl
    | graph =>
      refine emits_after_silent (asks_storeParameterHints parameters) fun _ _ => ?_
      exact hinner.done fun _ => wraps_defineNode ..
  | goto target arguments =>
    exact emits_leaf rfl ((asks_exprs arguments).then_quiet fun _ _ =>
      (quiet_gotoStmt setting target _).bind fun _ hshows => quiet_pure hshows)
  | uses tools => exact emits_uses tools
  | assign name hint value =>
    cases value with
    | thread kind inner =>
      have hinner := emits_recordBody false inner
      refine emits_met_twice (.thread kind inner) ?_ rfl rfl rfl
      refine emits_after_silent (quiet_fresh .savedMessages).asks fun saved _ => ?_
      exact hinner.done fun _ => .single rfl rfl rfl
    | timed inner prints =>
      have hinner := emits_recordBody false inner
      refine emits_met_twice (.timed inner prints) ?_ rfl rfl rfl
      refine emits_after_silent quiet_nextIndex.asks fun index _ => ?_
      exact hinner.done fun _ => .single rfl rfl rfl
    | expr value =>
      refine emits_leaf rfl (asks_after
        (asks_of_sameButHints (sameButHints_storeHint? name hint)) fun _ _ =>
          asks_after (moves_hintOf name).quiet.asks fun type _ => ?_)
      refine ((asks_expr value).expecting type).then_quiet fun code _ => ?_
      exact (moves_allowedTypeCode hint).quiet.bind fun _ _ => quiet_pure ⟨rfl, rfl⟩
    | parameter parameter =>
      refine emits_silent_leaf rfl (asks_after
        (asks_of_sameButHints (sameButHints_storeHint? name hint)) fun _ _ =>
          asks_after (moves_parameterCode parameter).quiet.asks fun code _ => ?_)
      exact ((moves_allowedTypeCode hint).quiet.bind fun _ _ => quiet_pure ⟨rfl, rfl⟩).asks
    | _ => exact emits_of_fails (fails_assign rfl)
  | ret value =>
    have hturns : (Node.ret value).turns = ((value.map Expr.asked).getD []).map .asks := by
      cases value <;> rfl
    rw [hturns]
    exact emits_leaf rfl ((asks_returned value).then_quiet fun _ _ =>
      (quiet_retStmt setting _).bind fun _ hshows => quiet_pure hshows)
  | hint name type =>
    refine emits_silent_leaf rfl (asks_after
      (asks_of_sameButHints (sameButHints_storeHint name type)) fun _ _ =>
        asks_after moves_annotationsAllowed.quiet.asks fun allowed _ => ?_)
    split
    · exact ((moves_typeCode type).quiet.bind fun _ _ => quiet_pure ⟨rfl, rfl⟩).asks
    · exact asks_pure ⟨rfl, rfl⟩
  | ifElse condition thenBody elseBody =>
    have hthen := emits_recordBody false thenBody
    have helse := emits_recordElseBranches elseBody
    rw [Node.turns, append_assoc]
    refine Emits.met (emits_after_asking (asks_expr condition) fun code _ => ?_) rfl
    refine hthen.bind ?_
    rintro stmts _ rfl
    refine helse.then_pure ?_
    rintro ⟨branches, otherwise⟩ _ rfl
    exact ⟨_, rfl, .single (congrArg (_ :: ·) (append_assoc ..)) rfl rfl⟩
  | loop condition inner =>
    have hinner := emits_recordBody false inner
    refine Emits.met (emits_after_asking (asks_expr condition) fun code _ => ?_) rfl
    exact hinner.done fun _ => .single rfl rfl rfl
  | select subject arms =>
    have harms := emits_recordChoices arms
    refine Emits.met (emits_after_silent (quiet_fresh .subject).asks fun temp _ => ?_) rfl
    refine emits_after_asking (asks_expr subject) fun value _ => harms.then_pure ?_
    rintro ⟨choices, otherwise⟩ _ rfl
    exact ⟨_, rfl, .single rfl rfl rfl⟩
  | thread kind inner =>
    have hinner := emits_recordBody false inner
    refine Emits.met (emits_after_silent (quiet_fresh .savedMessages).asks fun saved _ => ?_) rfl
    exact hinner.done fun _ => .single rfl rfl rfl
  | special name value =>
    exact emits_leaf rfl ((asks_specialStmt name value).then_pure fun _ hshows => hshows)
  | timed inner prints =>
    have hinner := emits_recordBody false inner
    refine Emits.met (emits_after_silent quiet_nextIndex.asks fun index _ => ?_) rfl
    exact hinner.done fun _ => .single rfl rfl rfl
  | importNames kind names path =>
    exact emits_silent_leaf rfl
      ((quiet_importStmt kind names path).bind fun _ hshows => quiet_pure hshows).asks
  | importNodes names path =>
    refine emits_silent_leaf rfl (asks_pure ?_)
    unfold importNodesStmt
    cases setting.backend <;> exact ⟨rfl, rfl⟩
  | importTools | comment => exact emits_silent_leaf rfl (asks_pure ⟨rfl, rfl⟩)
  | blockComment text => exact emits_silent_leaf rfl (asks_pure (shows_notes (noteLines text)))
  | newline => exact emits_silent_leaf rfl (asks_pure ⟨rfl, rfl⟩)
termination_by structural n

theorem emits_recordBody (afterLineEnd : Bool) (inner : List Node) :
    Emits (recordBody setting afterLineEnd inner) (Node.listTurns inner) fun stmts parts =>
      parts = Stmt.listParts stmts := by
  cases inner with
  | nil => exact emits_pure rfl
  | cons first rest =>
    have hfirst := emits_recordNode first
    have hrest := emits_recordBody false rest
    have hlater := emits_recordBody true rest
    by_cases h : first = .newline
    · subst h
      refine Emits.met (hlater.then_pure ?_) rfl
      rintro stmts _ rfl
      refine ⟨_, rfl, ?_⟩
      cases afterLineEnd with
      | true => exact ⟨rfl, rfl⟩
      | false => exact .refl _
    · rw [recordBody_cons h]
      refine hfirst.collecting.bind ?_
      rintro ⟨hoisted, stmts⟩ _ ⟨_, rfl, rfl⟩
      refine hrest.then_pure ?_
      rintro others _ rfl
      refine ⟨_, rfl, ?_⟩
      rw [Stmt.listParts_append, Stmt.listParts_append]
termination_by structural inner

theorem emits_recordElseBranches (other : Option (List Node)) :
    Emits (recordElseBranches setting other) (Node.otherwiseTurns other) fun chain parts =>
      parts = chainParts chain := by
  cases other with
  | none => exact emits_pure rfl
  | some nodes =>
    -- Unless a single branching continues the chain, the nodes are a body.
    have hbody := emits_recordBody false nodes
    have hplain : Emits (do return ([], some (← recordBody setting false nodes)))
        (Node.listTurns nodes) fun chain parts => parts = chainParts chain :=
      hbody.then_pure fun _ _ hparts => ⟨_, rfl, hparts⟩
    cases nodes with
    | nil => exact hplain
    | cons n rest =>
      cases rest with
      | cons second others => cases n <;> exact hplain
      | nil =>
        cases n with
        | ifElse condition thenBody elseBody =>
          have hthen := emits_recordBody false thenBody
          have helse := emits_recordElseBranches elseBody
          rw [Node.otherwiseTurns, Node.listTurns, Node.listTurns, append_nil, Node.turns,
            append_assoc]
          refine Emits.met (emits_after_asking (asks_expr condition) fun code _ => ?_) rfl
          refine hthen.bind ?_
          rintro stmts _ rfl
          refine helse.then_pure ?_
          rintro ⟨branches, otherwise⟩ _ rfl
          have hparts : chainParts ((code, stmts) :: branches, otherwise) =
              Stmt.listParts stmts ++ chainParts (branches, otherwise) := append_assoc ..
          exact ⟨_, rfl, hparts ▸ .refl _⟩
        | _ => exact hplain
termination_by structural other

theorem emits_recordChoices (arms : List Arm) :
    Emits (recordChoices setting arms) (Node.armTurns arms) fun arms parts =>
      parts = armParts arms := by
  cases arms with
  | nil => exact emits_pure rfl
  | cons first rest =>
    have hrest := emits_recordChoices rest
    cases first with
    | comment text =>
      refine hrest.then_pure ?_
      rintro ⟨others, otherwise⟩ _ rfl
      exact ⟨_, rfl, rfl⟩
    | arm value inner =>
      have hinner := (emits_recordNode inner).collecting
      cases value with
      | none =>
        refine hinner.then_pure ?_
        rintro ⟨hoisted, stmts⟩ _ ⟨_, rfl, rfl⟩
        exact ⟨_, rfl, (Stmt.listParts_append ..).symm⟩
      | some value =>
        rw [Node.armTurns, append_assoc]
        refine emits_after_asking (asks_expr value) fun code _ => hinner.bind ?_
        rintro ⟨hoisted, stmts⟩ _ ⟨_, rfl, rfl⟩
        refine hrest.then_pure ?_
        rintro ⟨others, otherwise⟩ _ rfl
        exact ⟨_, rfl, by simp [armParts, Stmt.choiceParts, Stmt.listParts_append]⟩
termination_by structural arms

end

/-! ### Programs -/

theorem emits_recordStatement (n : Node) :
    Emits (recordStatement setting n) n.turns fun stmts parts => parts = Stmt.listParts stmts := by
  refine (emits_recordNode n).collecting.then_pure ?_
  rintro ⟨hoisted, stmts⟩ _ ⟨_, rfl, rfl⟩
  exact ⟨_, rfl, (Stmt.listParts_append ..).symm⟩

theorem emits_recordStepBody (n : Node) :
    Emits (recordStepBody setting n) n.turns fun stmts parts => parts = Stmt.listParts stmts := by
  unfold recordStepBody
  cases hvalue : plainValue? n with
  | some value =>
    obtain rfl := plainValue?_eq_some hvalue
    refine Emits.met (emits_after_silent (quiet_fresh .result).asks fun holder _ => ?_) rfl
    refine (emits_asking (asks_expr value)).collecting.then_pure ?_
    rintro ⟨hoisted, code⟩ _ ⟨_, ⟨-, rfl⟩, rfl⟩
    refine ⟨_, rfl, ?_⟩
    rw [append_nil]
    exact .behind ⟨rfl, rfl⟩
  | none =>
    refine Emits.shown ((emits_recordStatement n).done fun stmts => .behind ?_)
    split <;> exact ⟨rfl, rfl⟩

theorem emits_recordNodeSections (n : Node) :
    Emits (recordNodeSections setting n) n.turns fun sections parts =>
      parts = sections.flatMap Section.parts := by
  have hstatement : Emits (recordStatement setting n) _ _ := emits_recordStatement n
  have hstep : Emits (recordStepSection setting n) n.turns fun part parts =>
      parts = part.parts := by
    refine emits_after_silent (quiet_fresh .step).asks fun temp _ => ?_
    exact ((emits_recordStepBody n).inScope .step none).done fun _ => rfl
  cases n with
  | newline => exact emits_pure rfl
  | function name parameters inner returns doc =>
    rw [← append_nil (Node.turns _)]
    refine hstatement.bind ?_
    rintro stmts _ rfl
    exact emits_after_silent (quiet_fresh .result).asks fun holder _ => emits_pure rfl
  | graphNode name parameters inner returns visibility =>
    refine hstatement.then_pure ?_
    rintro stmts _ rfl
    refine ⟨_, rfl, ?_⟩
    cases isEntry visibility <;> exact (append_nil _).symm
  | _ =>
    unfold recordNodeSections
    dsimp only
    split
    · exact hstatement.done fun _ => (append_nil _).symm
    · exact hstep.done fun _ => (append_nil _).symm

theorem emits_recordListSections (nodes : List Node) :
    Emits (recordListSections setting nodes) (Node.listTurns nodes) fun sections parts =>
      parts = sections.flatMap Section.parts := by
  induction nodes with
  | nil => exact emits_pure rfl
  | cons n rest ih =>
    refine (emits_recordNodeSections n).bind ?_
    rintro sections _ rfl
    exact ih.done fun _ => flatMap_append.symm

theorem emits_recordSections (program : Program) :
    Emits (recordSections setting program) program.turns fun sections parts =>
      parts = sections.flatMap Section.parts := by
  unfold recordSections
  cases setting.backend with
  | script =>
    exact (emits_recordBody false program.nodes).done fun _ => (append_nil _).symm
  | graph => exact emits_recordListSections program.nodes

end AgentLang.Compile
