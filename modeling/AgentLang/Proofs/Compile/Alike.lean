import AgentLang.Proofs.Compile.Quiet
import Mathlib.Data.List.Forall2

/-!
# Steps side by side

Two steps of compilation are run from states that stand beside each other: the same tools wait, the
same prompts wait ahead of the open statements, and the known types agree but for those of some
names. Where both steps end, their results are related and their states stand beside each other
again. Numbers and built-ins may differ.
-/

namespace AgentLang.Compile

open Target (Builtin PromptFunction Purpose Stmt)

/-- Two functions that ask the same with the same tools. Where schemas count, they also want the
same response. -/
structure Matches (schemas : Prop) (f g : PromptFunction) : Prop where
  parameters : f.parameters = g.parameters
  text : f.text = g.text
  tools : f.tools = g.tools
  schema : schemas → f.schema = g.schema

/-- The prompts of one list of statements match those of the other one by one. -/
def Agree (schemas : Prop) (parts others : List Stmt) : Prop :=
  List.Forall₂ (Matches schemas) (parts.filterMap Stmt.prompt?) (others.filterMap Stmt.prompt?)

namespace Agree

variable {schemas : Prop} {parts parts' others others' : List Stmt}

theorem append (h : Agree schemas parts others) (h' : Agree schemas parts' others') :
    Agree schemas (parts ++ parts') (others ++ others') := by
  unfold Agree
  rw [List.filterMap_append, List.filterMap_append]
  exact List.rel_append h h'

theorem of_none (h : parts.filterMap Stmt.prompt? = []) (h' : others.filterMap Stmt.prompt? = []) :
    Agree schemas parts others := by
  unfold Agree
  rw [h, h']
  exact .nil

end Agree

/-- The open scopes of one state return what those of another return. There may be one more around
all of them, which returns nothing. -/
def OneAround (types others : List (Option Ty)) : Prop :=
  others = types ∨ others = types ++ [none]

namespace OneAround

variable {types others : List (Option Ty)}

theorem cons (h : OneAround types others) (type : Option Ty) :
    OneAround (type :: types) (type :: others) :=
  h.imp (congrArg (type :: ·)) (congrArg (type :: ·))

theorem tail (h : OneAround types others) : OneAround types.tail others.tail := by
  rcases h with rfl | rfl
  · exact .inl rfl
  · cases types with
    | nil => exact .inl rfl
    | cons type rest => exact .inr rfl

theorem head (h : OneAround types others) : types.head?.join = others.head?.join := by
  rcases h with rfl | rfl
  · rfl
  · cases types with
    | nil | cons => rfl

end OneAround

/-- Two states that stand beside each other. The types of special names are left open. Where the
states are aligned they also expect the same type. -/
structure State.Beside (schemas aligned : Prop) (special : String → Prop) (s t : State) : Prop where
  tools : s.context.pendingTools = t.context.pendingTools
  returns : OneAround (s.context.frames.map Frame.returns) (t.context.frames.map Frame.returns)
  hoisted : List.Forall₂ (fun waiting others =>
    Agree schemas (Stmt.listParts waiting) (Stmt.listParts others))
    s.context.hoisted t.context.hoisted
  hints : ∀ name, ¬special name → s.hints.lookup name = t.hints.lookup name
  outer : s.context.expectations.tail = t.context.expectations.tail
  inner : aligned → s.context.expectations = t.context.expectations

namespace State.Beside

variable {schemas aligned : Prop} {special : String → Prop} {s s' t t' : State}

theorem of_left (h : Beside schemas aligned special s t) (hs : s.SameButNumbers s') :
    Beside schemas aligned special s' t := by
  obtain ⟨hhints, hcontext⟩ := hs
  constructor
  · rw [hcontext]
    exact h.tools
  · rw [hcontext]
    exact h.returns
  · rw [hcontext]
    exact h.hoisted
  · rw [hhints]
    exact h.hints
  · rw [hcontext]
    exact h.outer
  · rw [hcontext]
    exact h.inner

theorem of_right (h : Beside schemas aligned special s t) (ht : t.SameButNumbers t') :
    Beside schemas aligned special s t' := by
  obtain ⟨hhints, hcontext⟩ := ht
  constructor
  · rw [hcontext]
    exact h.tools
  · rw [hcontext]
    exact h.returns
  · rw [hcontext]
    exact h.hoisted
  · rw [hhints]
    exact h.hints
  · rw [hcontext]
    exact h.outer
  · rw [hcontext]
    exact h.inner

theorem returnType (h : Beside schemas aligned special s t) :
    s.context.returnType = t.context.returnType := by
  have heq (c : Context Scope Ty Stmt) :
      c.returnType = (c.frames.map Frame.returns).head?.join := by
    unfold Context.returnType
    cases c.frames <;> rfl
  rw [heq, heq]
  exact h.returns.head

end State.Beside

namespace Build

open State (Beside)

variable {α β γ δ : Type} {step : Build α} {other : Build β}

/-! ### Steps side by side -/

/-- From states that are related, where both steps end, their results are related and so are the
states behind them. -/
def Alike (R : State → State → Prop) (step : Build α) (other : Build β) (Q : α → β → Prop) : Prop :=
  ∀ s t, R s t → ∀ a b s' t', step s = (.ok a, s') → other t = (.ok b, t') → Q a b ∧ R s' t'

section

variable {R : State → State → Prop} {Q : α → β → Prop} {S : γ → δ → Prop}

theorem alike_pure (h : Q a b) : Alike R (pure a) (pure b) Q := by
  rintro s t hst c d s' t' hs ht
  cases hs
  cases ht
  exact ⟨h, hst⟩

theorem Alike.mono {S : α → β → Prop} (h : Alike R step other Q) (hQ : ∀ a b, Q a b → S a b) :
    Alike R step other S := by
  intro s t hst a b s' t' hs ht
  obtain ⟨hab, hst'⟩ := h s t hst a b s' t' hs ht
  exact ⟨hQ a b hab, hst'⟩

theorem Alike.bind (h : Alike R step other Q) (hnext : ∀ a b, Q a b → Alike R (next a) (next' b) S) :
    Alike R (step >>= next) (other >>= next') S := by
  intro s t hst c d s' t' hs ht
  obtain ⟨a, middle, hstep, hrest⟩ := bind_ok hs
  obtain ⟨b, middle', hother, hrest'⟩ := bind_ok ht
  obtain ⟨hab, hmiddle⟩ := h s t hst a b middle middle' hstep hother
  exact hnext a b hab middle middle' hmiddle c d s' t' hrest hrest'

theorem Alike.map {f : α → γ} {g : β → δ} (h : Alike R step other Q)
    (hfg : ∀ a b, Q a b → S (f a) (g b)) : Alike R (f <$> step) (g <$> other) S := by
  rw [map_eq_pure_bind, map_eq_pure_bind]
  exact h.bind fun a b hab => alike_pure (hfg a b hab)

theorem Alike.then_pure {f : β → δ} {S : α → δ → Prop} (h : Alike R step other Q)
    (hf : ∀ a b, Q a b → S a (f b)) : Alike R step (other >>= fun b => pure (f b)) S := by
  rw [← bind_pure step]
  exact h.bind fun a b hab => alike_pure (hf a b hab)

/-- A step that only counts may come first on one side. -/
theorem Alike.before {P : β → Prop} {next : β → Build δ} {S : α → δ → Prop}
    (hR : ∀ s t t', R s t → t.SameButNumbers t' → R s t') (hother : Quiet other P)
    (h : ∀ b, P b → Alike R step (next b) S) : Alike R step (other >>= next) S := by
  intro s t hst c d s' t' hs ht
  obtain ⟨b, middle, hfirst, hrest⟩ := bind_ok ht
  obtain ⟨hb, hsame⟩ := hother t b middle hfirst
  exact h b hb s middle (hR s t middle hst hsame) c d s' t' hs hrest

theorem Fails.alike (h : Fails step) : Alike R step other Q :=
  fun s _ _ a _ s' _ hs _ => absurd hs (h s a s')

theorem Fails.alike_right (h : Fails other) : Alike R step other Q :=
  fun _ t _ _ b _ t' _ ht => absurd ht (h t b t')

end

section

variable {schemas aligned : Prop} {special : String → Prop} {P : α → Prop}

theorem Alike.after (hstep : Quiet step P)
    (h : ∀ a, P a → Alike (Beside schemas aligned special) (next a) other S) :
    Alike (Beside schemas aligned special) (step >>= next) other S := by
  intro s t hst c d s' t' hs ht
  obtain ⟨a, middle, hfirst, hrest⟩ := bind_ok hs
  obtain ⟨ha, hsame⟩ := hstep s a middle hfirst
  exact h a ha middle t (hst.of_left hsame) c d s' t' hrest ht

theorem Quiet.alike (h : Quiet step P) (h' : Quiet other R) :
    Alike (Beside schemas aligned special) step other fun a b => P a ∧ R b := by
  intro s t hst a b s' t' hs ht
  obtain ⟨ha, hsame⟩ := h s a s' hs
  obtain ⟨hb, hsame'⟩ := h' t b t' ht
  exact ⟨⟨ha, hb⟩, (hst.of_left hsame).of_right hsame'⟩

theorem alike_takeTools :
    Alike (Beside schemas aligned special) takeTools takeTools fun tools others =>
      tools = others := by
  rintro s t hst tools others s' t' hs ht
  cases hs
  cases ht
  exact ⟨hst.tools, rfl, hst.returns, hst.hoisted, hst.hints, hst.outer, hst.inner⟩

theorem alike_offerTool (tool : String) :
    Alike (Beside schemas aligned special) (offerTool tool) (offerTool tool) fun _ _ => True := by
  rintro s t hst _ _ s' t' hs ht
  have hstate (u : State) : (offerTool tool u).2 = { u with context :=
    if tool ∈ u.context.pendingTools then u.context else u.context.addTool tool } := rfl
  obtain rfl := (congrArg Prod.snd hs).symm.trans (hstate s)
  obtain rfl := (congrArg Prod.snd ht).symm.trans (hstate t)
  refine ⟨trivial, ?_⟩
  rw [← hst.tools]
  split
  · exact ⟨hst.tools, hst.returns, hst.hoisted, hst.hints, hst.outer, hst.inner⟩
  · refine ⟨?_, hst.returns, hst.hoisted, hst.hints, hst.outer, hst.inner⟩
    exact congrArg (· ++ [tool]) hst.tools

theorem alike_hoist (h : Agree schemas (Stmt.listParts stmts) (Stmt.listParts others)) :
    Alike (Beside schemas aligned special) (hoist stmts) (hoist others) fun _ _ => True := by
  intro s t hst x y s' t' hs ht
  obtain ⟨waiting, rest, hframes, rfl⟩ := hoist_ok hs
  obtain ⟨waiting', rest', hframes', rfl⟩ := hoist_ok ht
  have hhoisted := hst.hoisted
  rw [hframes, hframes'] at hhoisted
  cases hhoisted with
  | cons hwaiting hrest =>
    refine ⟨trivial, hst.tools, hst.returns, .cons ?_ hrest, hst.hints, hst.outer, hst.inner⟩
    rw [Stmt.listParts_append, Stmt.listParts_append]
    exact hwaiting.append h

/-! ### Types -/

theorem lookup_setHint (name other : String) (type : Ty) (hints : List (String × Ty)) :
    (setHint name type hints).lookup other =
      if other = name then some type else hints.lookup other := by
  induction hints with
  | nil =>
    by_cases h : other = name
    · simp [setHint, h]
    · simp [setHint, List.lookup_cons, h, beq_eq_false_iff_ne.mpr h]
  | cons entry rest ih =>
    obtain ⟨known, old⟩ := entry
    rw [setHint]
    by_cases hknown : known = name
    · rw [if_pos hknown, List.lookup_cons, List.lookup_cons, hknown]
      by_cases h : other = name
      · simp [h]
      · simp [h, beq_eq_false_iff_ne.mpr h]
    · rw [if_neg hknown, List.lookup_cons, List.lookup_cons, ih]
      by_cases h : other = name
      · have hne : (other == known) = false := by
          rw [h]
          exact beq_eq_false_iff_ne.mpr (Ne.symm hknown)
        rw [hne, if_pos h]
      · rw [if_neg h, if_neg h]

theorem storeHint_state (name : String) (type : Ty) (s : State) :
    storeHint name type s = (.ok (), { s with hints := setHint name type s.hints }) := rfl

theorem alike_storeHint (name : String) (type : Ty) :
    Alike (Beside schemas aligned special) (storeHint name type) (storeHint name type)
      fun _ _ => True := by
  intro s t hst x y s' t' hs ht
  rw [storeHint_state] at hs ht
  cases hs
  cases ht
  refine ⟨trivial, hst.tools, hst.returns, hst.hoisted, fun other h => ?_, hst.outer, hst.inner⟩
  rw [lookup_setHint, lookup_setHint, hst.hints other h]

/-- The type that a name is known by behind its own hint. It is the same on both sides if there is a
hint or the name is not special. -/
theorem alike_hinted (name : String) (hint : Option Ty) :
    Alike (Beside schemas aligned special)
      (storeHint? name hint >>= fun _ => hintOf name)
      (storeHint? name hint >>= fun _ => hintOf name)
      fun known other => (hint = none → ¬special name) → known = other := by
  cases hint with
  | none =>
    rintro s t hst known other s' t' hs ht
    cases hs
    cases ht
    exact ⟨fun h => hst.hints name (h rfl), hst⟩
  | some type =>
    rintro s t hst known other s' t' hs ht
    obtain ⟨_, middle, hstep, hrest⟩ := bind_ok hs
    obtain ⟨_, middle', hstep', hrest'⟩ := bind_ok ht
    obtain ⟨-, hmiddle⟩ := alike_storeHint name type s t hst _ _ middle middle' hstep hstep'
    cases hstep
    cases hstep'
    cases hrest
    cases hrest'
    refine ⟨fun _ => ?_, hmiddle⟩
    rw [lookup_setHint, lookup_setHint, if_pos rfl, if_pos rfl]

theorem alike_storeHint? (name : String) (hint : Option Ty) :
    Alike (Beside schemas aligned special) (storeHint? name hint) (storeHint? name hint)
      fun _ _ => True := by
  cases hint with
  | none => exact alike_pure trivial
  | some type => exact alike_storeHint name type

theorem alike_storeParameterHints (parameters : List Parameter) :
    Alike (Beside schemas aligned special) (storeParameterHints parameters)
      (storeParameterHints parameters) fun _ _ => True := by
  unfold storeParameterHints
  induction parameters with
  | nil => exact alike_pure trivial
  | cons parameter rest ih =>
    rw [List.forM_eq_forM, List.forM_cons]
    exact (alike_storeHint? _ _).bind fun _ _ _ => ih

theorem Alike.before_hints
    (hparameters : ∀ parameter ∈ parameters, parameter.hint.isSome → special parameter.name)
    (h : Alike (Beside schemas aligned special) other (next ()) S) :
    Alike (Beside schemas aligned special) other (storeParameterHints parameters >>= next) S := by
  intro s t hst c d s' t' hs ht
  obtain ⟨_, middle, hstore, hrest⟩ := bind_ok ht
  suffices hmiddle : Beside schemas aligned special s middle from
    h s middle hmiddle c d s' t' hs hrest
  clear hrest ht
  induction parameters generalizing t with
  | nil =>
    cases hstore
    exact hst
  | cons parameter rest ih =>
    rw [List.forall_mem_cons] at hparameters
    rw [storeParameterHints, List.forM_eq_forM, List.forM_cons] at hstore
    obtain ⟨_, stored, hfirst, hstore⟩ := bind_ok hstore
    refine ih hparameters.2 stored ?_ hstore
    cases hhint : parameter.hint with
    | none =>
      rw [hhint] at hfirst
      cases hfirst
      exact hst
    | some type =>
      rw [hhint, storeHint?, storeHint_state] at hfirst
      cases hfirst
      refine ⟨hst.tools, hst.returns, hst.hoisted, fun other hother => ?_, hst.outer, hst.inner⟩
      have hne : other ≠ parameter.name := by
        rintro rfl
        exact hother (hparameters.1 (by rw [hhint]; rfl))
      rw [lookup_setHint, if_neg hne]
      exact hst.hints other hother

/-! ### What is opened is closed -/

variable {Q : α → β → Prop}

theorem Alike.expecting (h : Alike (Beside schemas (type = type') special) step other Q) :
    Alike (Beside schemas True special) (expecting type step) (expecting type' other) Q := by
  intro s t hst a b s' t' hs ht
  obtain ⟨after, hstep, rfl⟩ := between_ok hs
  obtain ⟨after', hother, rfl⟩ := between_ok ht
  have haligned := hst.inner trivial
  have hopened : Beside schemas (type = type') special
      { s with context := s.context.expect type } { t with context := t.context.expect type' } :=
    ⟨hst.tools, hst.returns, hst.hoisted, hst.hints, haligned,
      fun htypes => congrArg₂ List.cons htypes haligned⟩
  obtain ⟨hab, hafter⟩ := h _ _ hopened a b after after' hstep hother
  have houter := hafter.outer
  exact ⟨hab, hafter.tools, hafter.returns, hafter.hoisted, hafter.hints,
    congrArg List.tail houter, fun _ => houter⟩

theorem Alike.inDefinition (scope : Scope) (returns : Option Ty)
    (h : Alike (Beside schemas aligned special) step other Q) :
    Alike (Beside schemas aligned special) (inDefinition scope returns step)
      (inDefinition scope returns other) Q := by
  intro s t hst a b s' t' hs ht
  unfold Build.inDefinition inScope withOwnTools at hs ht
  obtain ⟨inner, hinner, rfl⟩ := between_ok hs
  obtain ⟨after, hstep, rfl⟩ := between_ok hinner
  obtain ⟨inner', hinner', rfl⟩ := between_ok ht
  obtain ⟨after', hother, rfl⟩ := between_ok hinner'
  have hopened : Beside schemas aligned special
      { s with context := (s.context.enter ⟨scope, returns⟩).withTools [] }
      { t with context := (t.context.enter ⟨scope, returns⟩).withTools [] } :=
    ⟨rfl, hst.returns.cons returns, hst.hoisted, hst.hints, hst.outer, hst.inner⟩
  obtain ⟨hab, hafter⟩ := h _ _ hopened a b after after' hstep hother
  refine ⟨hab, hst.tools, ?_, hafter.hoisted, hafter.hints, hafter.outer, hafter.inner⟩
  have hreturns := hafter.returns.tail
  rwa [← List.map_tail, ← List.map_tail] at hreturns

theorem Alike.collecting (h : Alike (Beside schemas aligned special) step other Q) :
    Alike (Beside schemas aligned special) (collecting step) (collecting other) fun first second =>
      Agree schemas (Stmt.listParts first.1) (Stmt.listParts second.1) ∧ Q first.2 second.2 := by
  rintro s t hst ⟨hoisted, a⟩ ⟨hoisted', b⟩ s' t' hs ht
  obtain ⟨after, hstep, hpop⟩ := collecting_ok hs
  obtain ⟨after', hother, hpop'⟩ := collecting_ok ht
  have hopened : Beside schemas aligned special { s with context := s.context.pushHoist }
      { t with context := t.context.pushHoist } :=
    ⟨hst.tools, hst.returns, .cons (.of_none rfl rfl) hst.hoisted, hst.hints, hst.outer, hst.inner⟩
  obtain ⟨hab, hafter⟩ := h _ _ hopened a b after after' hstep hother
  have hframes := hafter.hoisted
  rcases hpop with ⟨heq, hs'⟩ | ⟨heq, rfl, rfl⟩ <;>
    rcases hpop' with ⟨heq', ht'⟩ | ⟨heq', rfl, rfl⟩ <;>
    rw [heq, heq'] at hframes <;> cases hframes
  · rename_i hfirst hrest
    refine ⟨⟨hfirst, hab⟩, ?_⟩
    rw [hs', ht']
    exact ⟨hafter.tools, hafter.returns, hrest, hafter.hints, hafter.outer, hafter.inner⟩
  · exact ⟨⟨.of_none rfl rfl, hab⟩, hafter⟩

end

end Build
end AgentLang.Compile
