import AgentLang.Proofs.Compile.Discipline
import AgentLang.Proofs.Compile.Quiet
import AgentLang.Proofs.Syntax.Traversal

/-!
# Steps that ask

An expression is compiled to a value, ahead of which the functions for its prompts wait. They wait in
the order in which the prompts are gone through, and the first of them takes all tools.
-/

namespace AgentLang.Compile

open Build
open State (SameButHints)
open Target (Code PromptFunction Stmt)

/-! ### What waits -/

/-- Prompts that follow each other: the first takes all tools that wait. -/
inductive Taken : List String → List PromptFunction → List String → Prop where
  | none (waiting : List String) : Taken waiting [] waiting
  | next {waiting left : List String} {f : PromptFunction} {later : List PromptFunction}
      (htools : f.tools = waiting) (h : Taken [] later left) : Taken waiting (f :: later) left

theorem Taken.append (h : Taken first functions second) (h' : Taken second later third) :
    Taken first (functions ++ later) third := by
  induction h with
  | none => exact h'
  | next htools _ ih => exact .next htools (ih h')

/-- Prompt functions are put behind what waits ahead of the innermost statement. -/
inductive Adds : List PromptFunction → List (List Stmt) → List (List Stmt) → Prop where
  | closed : Adds [] [] []
  | opened (functions : List PromptFunction) (waiting : List Stmt) (rest : List (List Stmt)) :
      Adds functions (waiting :: rest) ((waiting ++ functions.map .prompt) :: rest)

namespace Adds

variable {functions later : List PromptFunction} {first second third : List (List Stmt)}

theorem refl (frames : List (List Stmt)) : Adds [] frames frames := by
  cases frames with
  | nil => exact closed
  | cons waiting rest =>
    have h := opened [] waiting rest
    rwa [List.map_nil, List.append_nil] at h

theorem append (h : Adds functions first second) (h' : Adds later second third) :
    Adds (functions ++ later) first third := by
  cases h with
  | closed =>
    cases h' with
    | closed => exact closed
  | opened _ waiting rest =>
    cases h' with
    | opened =>
      rw [List.append_assoc, ← List.map_append]
      exact opened (functions ++ later) waiting rest

theorem eq_nil (h : Adds functions [] second) : functions = [] := by
  cases h
  rfl

theorem eq_of_opened (h : Adds functions (waiting :: first) second) :
    second = (waiting ++ functions.map .prompt) :: first := by
  cases h
  rfl

end Adds

/-- Between the states these prompts are asked, and nothing else happens to what waits. -/
structure State.Asks (functions : List PromptFunction) (s s' : State) : Prop where
  hoisted : Adds functions s.context.hoisted s'.context.hoisted
  tools : Taken s.context.pendingTools functions s'.context.pendingTools

namespace Build

variable {α β : Type} {step : Build α} {P : α → Prop} {R : β → Prop}
  {texts later : List (List Segment)}

/-- Where the step ends, its result is as given and it has asked prompts of these texts. -/
def Asks (step : Build α) (texts : List (List Segment)) (P : α → Prop) : Prop :=
  ∀ s a s', step s = (.ok a, s') → P a ∧
    ∃ functions, functions.map (·.text) = texts ∧ s.Asks functions s'

theorem Asks.bind (h : Asks step texts P) (hnext : ∀ a, P a → Asks (next a) later R) :
    Asks (step >>= next) (texts ++ later) R := by
  intro s b s' heq
  obtain ⟨a, middle, hstep, hrest⟩ := bind_ok heq
  obtain ⟨ha, functions, rfl, hasks⟩ := h s a middle hstep
  obtain ⟨hb, others, rfl, hasks'⟩ := hnext a ha middle b s' hrest
  refine ⟨hb, functions ++ others, List.map_append, ?_⟩
  exact ⟨hasks.hoisted.append hasks'.hoisted, hasks.tools.append hasks'.tools⟩

theorem Quiet.asks (h : Quiet step P) : Asks step [] P := by
  intro s a s' heq
  obtain ⟨ha, -, hcontext⟩ := h s a s' heq
  refine ⟨ha, [], rfl, ?_, ?_⟩
  · rw [hcontext]
    exact .refl _
  · rw [hcontext]
    exact .none _

theorem asks_after (h : Asks step [] P) (hnext : ∀ a, P a → Asks (next a) texts R) :
    Asks (step >>= next) texts R :=
  h.bind hnext

theorem asks_pure (h : P a) : Asks (pure a) [] P := (quiet_pure h).asks

theorem asks_of_sameButHints (h : Moves SameButHints step) : Asks step [] fun _ => True := by
  intro s a s' heq
  have hcontext := (h s).1
  rw [heq] at hcontext
  refine ⟨trivial, [], rfl, ?_, ?_⟩
  · rw [hcontext]
    exact .refl _
  · rw [hcontext]
    exact .none _

theorem Asks.then_pure {f : α → β} (h : Asks step texts P) (hf : ∀ a, P a → R (f a)) :
    Asks (step >>= fun a => pure (f a)) texts R := by
  rw [← List.append_nil texts]
  exact h.bind fun a ha => asks_pure (hf a ha)

theorem Asks.then_quiet (h : Asks step texts P) (hnext : ∀ a, P a → Quiet (next a) R) :
    Asks (step >>= next) texts R := by
  rw [← List.append_nil texts]
  exact h.bind fun a ha => (hnext a ha).asks

theorem Asks.expecting (type : Option Ty) (h : Asks step texts P) :
    Asks (expecting type step) texts P := by
  intro s a s' heq
  obtain ⟨after, hstep, rfl⟩ := between_ok heq
  obtain ⟨ha, functions, htexts, hasks⟩ := h _ a after hstep
  exact ⟨ha, functions, htexts, hasks.hoisted, hasks.tools⟩

theorem asks_prompt (f : List String → PromptFunction) (htools : ∀ tools, (f tools).tools = tools)
    (htext : ∀ tools, (f tools).text = text) (hvalue : P value) :
    Asks (do
      let tools ← takeTools
      hoist [.prompt (f tools)]
      return value) [text] P := by
  intro s a s' heq
  obtain ⟨tools, _, htake, hrest⟩ := bind_ok heq
  cases htake
  obtain ⟨_, _, hhoist, hrest⟩ := bind_ok hrest
  cases hrest
  obtain ⟨waiting, rest, hframes, rfl⟩ := hoist_ok hhoist
  refine ⟨hvalue, [f s.context.pendingTools], by rw [List.map_singleton, htext], ?_, ?_⟩
  · have hframes : s.context.hoisted = waiting :: rest := hframes
    rw [hframes]
    exact .opened _ waiting rest
  · exact .next (htools _) (.none [])

end Build

variable {setting : Setting}

mutual

theorem asks_expr (e : Expr) : Asks (expr setting e) e.asked fun _ => True := by
  cases e with
  | number | string | multiline | boolean | name => exact asks_pure trivial
  | prompt segments config =>
    have hconfig := asks_configEntries config
    refine asks_after quiet_nextIndex.asks fun index _ =>
      asks_after moves_responseSchema.quiet.asks fun schema _ => ?_
    exact hconfig.bind fun config _ => asks_prompt
      (⟨index, Segment.names segments, segments, schema, config, ·⟩) (fun _ => rfl) (fun _ => rfl)
      trivial
  | access base chain =>
    have hchain := asks_links chain
    exact (asks_expr base).bind fun _ _ => hchain.then_pure fun _ _ => trivial
  | array items => exact (asks_exprs items).then_pure fun _ _ => trivial
  | object entries => exact (asks_exprEntries entries).then_pure fun _ _ => trivial
  | call function arguments =>
    exact (asks_exprs arguments).then_quiet fun _ _ => quiet_callCode setting function _
  | binary _ first second =>
    have hsecond := asks_expr second
    exact (asks_expr first).bind fun _ _ => hsecond.then_pure fun _ _ => trivial

theorem asks_exprs (es : List Expr) :
    Asks (exprs setting es) (Expr.listAsked es) fun _ => True := by
  cases es with
  | nil => exact asks_pure trivial
  | cons first rest =>
    have hrest := asks_exprs rest
    exact (asks_expr first).bind fun _ _ => hrest.then_pure fun _ _ => trivial

theorem asks_exprEntries (entries : List (String × Expr)) :
    Asks (exprEntries setting entries) (Expr.entriesAsked entries) fun _ => True := by
  cases entries with
  | nil => exact asks_pure trivial
  | cons first rest =>
    obtain ⟨key, value⟩ := first
    have hrest := asks_exprEntries rest
    exact (asks_expr value).bind fun _ _ => hrest.then_pure fun _ _ => trivial

theorem asks_configEntries (config : Option (List (String × Expr))) :
    Asks (configEntries setting config) (Expr.configAsked config) fun _ => True := by
  cases config with
  | none => exact asks_pure trivial
  | some entries => exact (asks_exprEntries entries).then_pure fun _ _ => trivial

theorem asks_links (chain : List Step) :
    Asks (links setting chain) (Expr.chainAsked chain) fun _ => True := by
  cases chain with
  | nil => exact asks_pure trivial
  | cons link rest =>
    have hrest := asks_links rest
    cases link with
    | property _ => exact hrest.then_pure fun _ _ => trivial
    | index value =>
      exact (asks_expr value).bind fun _ _ => hrest.then_pure fun _ _ => trivial
    | method _ arguments =>
      exact (asks_exprs arguments).bind fun _ _ => hrest.then_pure fun _ _ => trivial

end

/-! ### Parts of statements -/

theorem asks_returned (value : Option Expr) :
    Asks (returned setting value) ((value.map Expr.asked).getD []) fun _ => True := by
  cases value with
  | none => exact asks_pure trivial
  | some value =>
    refine asks_after moves_get.quiet.asks fun s _ => ?_
    rw [map_eq_pure_bind]
    exact ((asks_expr value).expecting _).then_pure fun _ _ => trivial

theorem asks_specialStmt (name : String) (value : Expr) :
    Asks (specialStmt setting name value) value.asked fun stmt => Shows [] [stmt] := by
  unfold specialStmt
  split
  · exact (asks_expr value).then_pure fun _ _ => ⟨rfl, rfl⟩
  · split
    · exact (asks_expr value).then_pure fun _ _ => ⟨rfl, rfl⟩
    · exact fun s a s' heq => absurd heq (fails_fail _ s a s')

theorem asks_storeParameterHints (parameters : List Parameter) :
    Asks (storeParameterHints parameters) [] fun _ => True :=
  asks_of_sameButHints (sameButHints_storeParameterHints parameters)

end AgentLang.Compile
