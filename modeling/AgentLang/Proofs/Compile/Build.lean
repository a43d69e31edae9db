import AgentLang.Compile.Build
import AgentLang.Proofs.Target.Types

/-!
# Steps that are safe

A safe step fails only for the given reasons. It finds and leaves a number of open statements, and
all types that the state knows can be emitted. Safety goes through sequencing, and whatever opens
something closes it again.
-/

namespace AgentLang.Compile

open List
open Target (Builtin Purpose Stmt Temp)

/-- All known types can be emitted, and as many statements are open. -/
structure State.Ready (opened : Nat) (s : State) : Prop where
  hints : ∀ entry ∈ s.hints, entry.2.Coded
  returns : ∀ frame ∈ s.context.frames, ∀ type ∈ frame.returns, type.Coded
  expected : ∀ expectation ∈ s.context.expectations, ∀ type ∈ expectation, type.Coded
  opened : s.context.hoisted.length = opened

namespace State.Ready

variable {opened : Nat} {s : State}

theorem returnType (hs : s.Ready opened) : ∀ type ∈ s.context.returnType, type.Coded := by
  intro type htype
  obtain ⟨frame, hframe, hreturns⟩ := Option.bind_eq_some_iff.mp htype
  exact hs.returns frame (mem_of_head? hframe) type hreturns

theorem expectedType (hs : s.Ready opened) : ∀ type ∈ s.context.expectedType, type.Coded := by
  intro type htype
  have hhead := Option.join_eq_some_iff.mp htype
  exact hs.expected (some type) (mem_of_head? hhead) type rfl

end State.Ready

namespace Build

variable {α β : Type} {reasons : CompileError → Prop} {opened : Nat} {P : α → Prop} {R : β → Prop}

/-- A result of a step that is safe. -/
def Fine (reasons : CompileError → Prop) (opened : Nat) (P : α → Prop) :
    Except CompileError α × State → Prop
  | (.ok value, after) => P value ∧ after.Ready opened
  | (.error e, _) => reasons e

def Safe (reasons : CompileError → Prop) (opened : Nat) (step : Build α) (P : α → Prop) : Prop :=
  ∀ s : State, s.Ready opened → Fine reasons opened P (step s)

theorem Safe.mono (h : Safe reasons opened step P) (hP : ∀ a, P a → P' a) :
    Safe reasons opened step P' := by
  intro s hs
  have hstep := h s hs
  rcases heq : step s with ⟨⟨e⟩ | ⟨value⟩, after⟩
  · rw [heq] at hstep
    exact hstep
  · rw [heq] at hstep
    exact ⟨hP value hstep.1, hstep.2⟩

theorem safe_pure (h : P value) : Safe reasons opened (pure value) P :=
  fun _ hs => ⟨h, hs⟩

theorem Safe.bind {next} (h : Safe reasons opened step P)
    (hnext : ∀ value, P value → Safe reasons opened (next value) R) :
    Safe reasons opened (step >>= next) R := by
  intro s hs
  have hstep := h s hs
  change Fine reasons opened R ((ExceptT.bindCont next (step s).1) (step s).2)
  rcases heq : step s with ⟨⟨e⟩ | ⟨value⟩, after⟩
  · rw [heq] at hstep
    exact hstep
  · rw [heq] at hstep
    exact hnext value hstep.1 after hstep.2

theorem Safe.map {step : Build α} {f : α → β} (h : Safe reasons opened step P)
    (hf : ∀ value, P value → R (f value)) : Safe reasons opened (f <$> step) R := by
  rw [map_eq_pure_bind]
  exact h.bind fun value hvalue => safe_pure (hf value hvalue)

/-- A step whose result is only passed on. -/
theorem Safe.done {step : Build α} {f : α → β} (h : Safe reasons opened step P) :
    Safe reasons opened (step >>= fun value => pure (f value)) fun _ => True :=
  h.bind fun _ _ => safe_pure trivial

theorem safe_mapM {f : β → Build α} {inputs : List β}
    (h : ∀ input ∈ inputs, Safe reasons opened (f input) P) :
    Safe reasons opened (inputs.mapM f) fun _ => True := by
  induction inputs with
  | nil => exact safe_pure trivial
  | cons input rest ih =>
    rw [forall_mem_cons] at h
    rw [mapM_cons]
    exact h.1.bind fun _ _ => (ih h.2).bind fun _ _ => safe_pure trivial

theorem safe_forM {f : β → Build PUnit} {inputs : List β}
    (h : ∀ input ∈ inputs, Safe reasons opened (f input) fun _ => True) :
    Safe reasons opened (inputs.forM f) fun _ => True := by
  induction inputs with
  | nil => exact safe_pure trivial
  | cons input rest ih =>
    rw [forall_mem_cons] at h
    rw [forM_eq_forM, forM_cons]
    exact h.1.bind fun _ _ => ih h.2

theorem safe_fail (h : reasons e) : Safe reasons opened (Build.fail e : Build α) P :=
  fun _ _ => h

theorem safe_ofOption (h : value.isSome = true) :
    Safe reasons opened (ofOption e value) fun found => value = some found := by
  cases value with
  | none => exact nomatch h
  | some value => exact safe_pure rfl

theorem safe_get : Safe reasons opened (get : Build State) (State.Ready opened) :=
  fun _ hs => ⟨hs, hs⟩

theorem safe_set {s : State} (h : s.Ready opened) :
    Safe reasons opened (set s : Build PUnit) fun _ => True :=
  fun _ _ => ⟨trivial, h⟩

theorem safe_modify (h : ∀ s : State, s.Ready opened → (f s).Ready opened) :
    Safe reasons opened (modify f : Build PUnit) fun _ => True :=
  fun s hs => ⟨trivial, h s hs⟩

theorem safe_modifyContext (hframes : ∀ c, (f c).frames = c.frames)
    (hexpected : ∀ c, (f c).expectations = c.expectations)
    (hhoisted : ∀ c, (f c).hoisted = c.hoisted) :
    Safe reasons opened (modifyContext f) fun _ => True := by
  refine safe_modify fun s hs => ⟨hs.hints, ?_, ?_, ?_⟩
  · exact (hframes s.context).symm ▸ hs.returns
  · exact (hexpected s.context).symm ▸ hs.expected
  · exact (hhoisted s.context).symm ▸ hs.opened

theorem safe_nextIndex : Safe reasons opened nextIndex fun _ => True :=
  fun _ hs => ⟨trivial, hs.hints, hs.returns, hs.expected, hs.opened⟩

theorem safe_fresh (purpose : Purpose) : Safe reasons opened (fresh purpose) fun _ => True :=
  safe_nextIndex.bind fun _ _ => safe_pure trivial

theorem safe_scope : Safe reasons opened scope fun _ => True :=
  safe_get.bind fun _ _ => safe_pure trivial

theorem safe_offerTool (tool : String) : Safe reasons opened (offerTool tool) fun _ => True := by
  refine safe_modifyContext (fun c => ?_) (fun c => ?_) (fun c => ?_) <;> split <;> rfl

theorem safe_takeTools : Safe reasons opened takeTools fun _ => True :=
  fun _ hs => ⟨trivial, hs.hints, hs.returns, hs.expected, hs.opened⟩

theorem safe_useBuiltin (builtin : Builtin) :
    Safe reasons opened (useBuiltin builtin) fun _ => True := by
  refine safe_modify fun s hs => ?_
  split
  · exact hs
  · exact ⟨hs.hints, hs.returns, hs.expected, hs.opened⟩

theorem safe_hoist (stmts : List Stmt) : Safe reasons (opened + 1) (hoist stmts) fun _ => True := by
  refine safe_get.bind fun s hs => ?_
  obtain ⟨waiting, rest, heq⟩ := exists_cons_of_length_eq_add_one hs.opened
  have hhoist : s.context.hoist? stmts =
      some { s.context with hoisted := (waiting ++ stmts) :: rest } := by
    rw [Context.hoist?, heq]
  refine (safe_ofOption (hhoist ▸ rfl)).bind fun context hcontext => safe_set ?_
  obtain rfl := Option.some.inj (hhoist.symm.trans hcontext)
  refine ⟨hs.hints, hs.returns, hs.expected, ?_⟩
  rw [← hs.opened, heq]
  rfl

/-! ### Hints and types -/

theorem mem_setHint (h : entry ∈ setHint name type hints) :
    entry = (name, type) ∨ entry ∈ hints := by
  induction hints with
  | nil => exact .inl (List.mem_singleton.mp h)
  | cons known rest ih =>
    rw [setHint] at h
    split at h
    · rcases mem_cons.mp h with h | h
      · exact .inl h
      · exact .inr (mem_cons_of_mem _ h)
    · rcases mem_cons.mp h with h | h
      · exact .inr (h ▸ mem_cons_self)
      · exact (ih h).imp_right (mem_cons_of_mem _)

theorem safe_storeHint (name : String) (h : type.Coded) :
    Safe reasons opened (storeHint name type) fun _ => True := by
  refine safe_modify fun s hs => ⟨fun entry hentry => ?_, hs.returns, hs.expected, hs.opened⟩
  rcases mem_setHint hentry with rfl | hentry
  · exact h
  · exact hs.hints entry hentry

theorem safe_storeHint? (name : String) (h : ∀ type ∈ hint, type.Coded) :
    Safe reasons opened (storeHint? name hint) fun _ => True := by
  cases hint with
  | none => exact safe_pure trivial
  | some type => exact safe_storeHint name (h type rfl)

theorem safe_storeParameterHints (h : ∀ parameter ∈ parameters, ∀ type ∈ parameter.hint, type.Coded) :
    Safe reasons opened (storeParameterHints parameters) fun _ => True :=
  safe_forM fun parameter hmem => safe_storeHint? parameter.name (h parameter hmem)

theorem safe_hintOf (name : String) :
    Safe reasons opened (hintOf name) fun hint => ∀ type ∈ hint, type.Coded := by
  refine safe_get.bind fun s hs => safe_pure fun type htype => ?_
  obtain ⟨before, after, heq, -⟩ := lookup_eq_some_iff.mp htype
  exact hs.hints (name, type) (heq ▸ mem_append_right _ mem_cons_self)

theorem safe_typeCode (h : type.Coded) : Safe reasons opened (typeCode type) fun _ => True :=
  (safe_ofOption h.code).mono fun _ _ => trivial

theorem safe_typeCode? (h : ∀ type ∈ hint, type.Coded) :
    Safe reasons opened (typeCode? hint) fun _ => True := by
  cases hint with
  | none => exact safe_pure trivial
  | some type => exact (safe_typeCode (h type rfl)).map fun _ _ => trivial

theorem safe_responseSchema : Safe reasons opened responseSchema fun _ => True := by
  refine safe_get.bind fun s hs => ?_
  have hschema := Ty.responseSchema?_isSome hs.expectedType
  exact (safe_ofOption hschema).mono fun _ _ => trivial

/-! ### What is opened is closed -/

theorem safe_between
    (hopening : ∀ s : State, s.Ready opened →
      State.Ready opened { s with context := opening s.context })
    (hclosing : ∀ before after : State, before.Ready opened → after.Ready opened →
      State.Ready opened { after with context := closing before.context after.context })
    (hstep : Safe reasons opened step P) :
    Safe reasons opened (between opening closing step) P := by
  intro s hs
  have hinner := hstep _ (hopening s hs)
  unfold between
  rcases heq : step { s with context := opening s.context } with ⟨⟨e⟩ | ⟨value⟩, after⟩
  · rw [heq] at hinner
    exact hinner
  · rw [heq] at hinner
    exact ⟨hinner.1, hclosing s after hs hinner.2⟩

theorem safe_inScope (scope : Scope) (h : ∀ type ∈ returns, type.Coded)
    (hstep : Safe reasons opened step P) : Safe reasons opened (inScope scope returns step) P := by
  refine safe_between (fun s hs => ?_) (fun before after _ hafter => ?_) hstep
  · exact ⟨hs.hints, forall_mem_cons.mpr ⟨h, hs.returns⟩, hs.expected, hs.opened⟩
  · exact ⟨hafter.hints, fun frame hframe => hafter.returns frame (mem_of_mem_tail hframe),
      hafter.expected, hafter.opened⟩

theorem safe_expecting (h : ∀ t ∈ type, t.Coded) (hstep : Safe reasons opened step P) :
    Safe reasons opened (expecting type step) P := by
  refine safe_between (fun s hs => ?_) (fun before after _ hafter => ?_) hstep
  · exact ⟨hs.hints, hs.returns, forall_mem_cons.mpr ⟨h, hs.expected⟩, hs.opened⟩
  · exact ⟨hafter.hints, hafter.returns,
      fun expectation hmem => hafter.expected expectation (mem_of_mem_tail hmem),
      hafter.opened⟩

theorem safe_withOwnTools (hstep : Safe reasons opened step P) :
    Safe reasons opened (withOwnTools step) P :=
  safe_between (fun _ hs => ⟨hs.hints, hs.returns, hs.expected, hs.opened⟩)
    (fun _ _ _ hafter => ⟨hafter.hints, hafter.returns, hafter.expected, hafter.opened⟩) hstep

theorem safe_inDefinition (scope : Scope) (h : ∀ type ∈ returns, type.Coded)
    (hstep : Safe reasons opened step P) :
    Safe reasons opened (inDefinition scope returns step) P :=
  safe_inScope scope h (safe_withOwnTools hstep)

theorem safe_collecting (hstep : Safe reasons (opened + 1) step P) :
    Safe reasons opened (collecting step) fun result => P result.2 := by
  intro s hs
  have hpushed : State.Ready (opened + 1) { s with context := s.context.pushHoist } :=
    ⟨hs.hints, hs.returns, hs.expected, congrArg (· + 1) hs.opened⟩
  have hinner := hstep _ hpushed
  unfold collecting
  rcases heq : step { s with context := s.context.pushHoist } with ⟨⟨e⟩ | ⟨value⟩, after⟩
  · rw [heq] at hinner
    dsimp only
    split <;> exact hinner
  · rw [heq] at hinner
    obtain ⟨waiting, rest, hhoisted⟩ := exists_cons_of_length_eq_add_one hinner.2.opened
    have hpop :
        after.context.popHoist? = some (waiting, { after.context with hoisted := rest }) := by
      rw [Context.popHoist?, hhoisted]
    have hrest : rest.length = opened := by
      have := hinner.2.opened
      rw [hhoisted, length_cons] at this
      omega
    simp only [hpop]
    exact ⟨hinner.1, hinner.2.hints, hinner.2.returns, hinner.2.expected, hrest⟩

end Build
end AgentLang.Compile
