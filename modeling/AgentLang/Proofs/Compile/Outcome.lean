import AgentLang.Compile.Program

/-!
# Steps that end

What is known of the parts of a step that ends with a result.
-/

namespace AgentLang.Compile

open Target (Stmt)

namespace Build

variable {α β : Type} {step : Build α}

theorem bind_ok (h : (step >>= next) s = (.ok b, s')) :
    ∃ a middle, step s = (.ok a, middle) ∧ next a middle = (.ok b, s') := by
  change (ExceptT.bindCont next (step s).1) (step s).2 = (.ok b, s') at h
  rcases heq : step s with ⟨⟨e⟩ | ⟨a⟩, middle⟩
  · rw [heq] at h
    exact nomatch congrArg Prod.fst h
  · rw [heq] at h
    exact ⟨a, middle, rfl, h⟩

theorem bind_of_ok (h : step s = (.ok a, s')) : (step >>= next) s = next a s' := by
  change (ExceptT.bindCont next (step s).1) (step s).2 = _
  rw [h]
  rfl

/-! ### Steps that fail -/

/-- The step never ends. -/
def Fails (step : Build α) : Prop := ∀ s a s', step s ≠ (.ok a, s')

theorem fails_fail (e : CompileError) : Fails (Build.fail e : Build α) :=
  fun _ _ _ heq => nomatch congrArg Prod.fst heq

theorem Fails.behind (h : ∀ a, Fails (next a)) : Fails (step >>= next) := by
  intro s b s' heq
  obtain ⟨a, middle, -, hrest⟩ := bind_ok heq
  exact h a middle b s' hrest

/-! ### What is opened is closed -/

theorem between_ok (h : between opening closing step s = (.ok a, s')) :
    ∃ after, step { s with context := opening s.context } = (.ok a, after) ∧
      s' = { after with context := closing s.context after.context } := by
  unfold between at h
  rcases heq : step { s with context := opening s.context } with ⟨result, after⟩
  rw [heq] at h
  cases h
  exact ⟨after, rfl, rfl⟩

theorem collecting_ok (h : collecting step s = (.ok (hoisted, a), s')) :
    ∃ after, step { s with context := s.context.pushHoist } = (.ok a, after) ∧
      (after.context.hoisted = hoisted :: s'.context.hoisted ∧
          s' = { after with context := { after.context with hoisted := s'.context.hoisted } } ∨
        after.context.hoisted = [] ∧ hoisted = [] ∧ s' = after) := by
  unfold collecting at h
  rcases heq : step { s with context := s.context.pushHoist } with ⟨⟨e⟩ | ⟨value⟩, after⟩
  · rw [heq] at h
    dsimp only at h
    split at h <;> exact nomatch congrArg Prod.fst h
  · rw [heq] at h
    cases hframes : after.context.hoisted with
    | nil =>
      have hpop : after.context.popHoist? = none := by rw [Context.popHoist?, hframes]
      simp only [hpop] at h
      cases h
      exact ⟨_, rfl, .inr ⟨hframes, rfl, rfl⟩⟩
    | cons waiting rest =>
      have hpop : after.context.popHoist? = some (waiting, { after.context with hoisted := rest }) :=
        by rw [Context.popHoist?, hframes]
      simp only [hpop] at h
      cases h
      exact ⟨after, rfl, .inl ⟨hframes, rfl⟩⟩

theorem hoist_ok (h : hoist stmts s = (.ok u, s')) :
    ∃ waiting rest, s.context.hoisted = waiting :: rest ∧
      s' = { s with context := { s.context with hoisted := (waiting ++ stmts) :: rest } } := by
  obtain ⟨_, _, hget, hrest⟩ := bind_ok h
  cases hget
  cases hframes : s.context.hoisted with
  | nil =>
    have hhoist : s.context.hoist? stmts = none := by rw [Context.hoist?, hframes]
    simp only [hhoist, ofOption] at hrest
    cases congrArg Prod.fst hrest
  | cons waiting rest =>
    have hhoist : s.context.hoist? stmts =
        some { s.context with hoisted := (waiting ++ stmts) :: rest } := by
      rw [Context.hoist?, hframes]
    simp only [hhoist, ofOption] at hrest
    cases hrest
    exact ⟨waiting, rest, rfl, rfl⟩

end Build

open Build (collecting)

/-! ### Bodies -/

theorem body_newline (setting : Setting) (afterLineEnd : Bool) (rest : List Node) :
    body setting afterLineEnd (.newline :: rest) = (do
      let stmts ← body setting true rest
      return (if afterLineEnd then .blank :: stmts else stmts)) := rfl

theorem body_cons (h : first ≠ .newline) :
    body setting afterLineEnd (first :: rest) = (do
      let (hoisted, stmts) ← collecting (node setting first)
      return hoisted ++ stmts ++ (← body setting false rest)) := by
  cases first with
  | newline => exact absurd rfl h
  | _ => rfl

theorem plainValue?_eq_some (h : plainValue? n = some value) : n = .expr value := by
  unfold plainValue? at h
  split at h
  · split at h
    · exact nomatch h
    · exact congrArg Node.expr (Option.some.inj h)
  · exact congrArg Node.expr (Option.some.inj h)
  · exact nomatch h

end AgentLang.Compile

namespace AgentLang.Program

variable {program : Program} {options : CompileOptions} {compiled : Compiled}

theorem compile_ok (h : program.compile options = .ok compiled) :
    ∃ sections state model host,
      Compile.sections (program.setting options.backend) program {} = (.ok sections, state) ∧
        options.model = .ok model ∧ options.host = .ok host ∧
        compiled = ⟨⟨model, host, options.graphSetup?, state.used, sections⟩, state⟩ := by
  unfold compile at h
  simp only [ExceptT.run] at h
  rcases hrun : Compile.sections (program.setting options.backend) program {} with
    ⟨⟨e⟩ | ⟨sections⟩, state⟩
  · rw [hrun] at h
    exact nomatch h
  · rw [hrun] at h
    cases hmodel : options.model with
    | error reason =>
      rw [hmodel] at h
      exact nomatch h
    | ok model =>
      cases hhost : options.host with
      | error reason =>
        rw [hmodel, hhost] at h
        exact nomatch h
      | ok host =>
        rw [hmodel, hhost] at h
        cases h
        exact ⟨sections, state, model, host, rfl, rfl, rfl, rfl⟩

theorem sections_graph_of_compile (h : program.compile options = .ok compiled) :
    Compile.sections (program.setting options.backend) program {} =
        (.ok compiled.module.sections, compiled.state) ∧
      compiled.module.graph = options.graphSetup? := by
  obtain ⟨sections, state, model, host, hrun, -, -, rfl⟩ := compile_ok h
  exact ⟨hrun, rfl⟩

theorem used_of_compile (h : program.compile options = .ok compiled) :
    compiled.module.used = compiled.state.used := by
  obtain ⟨sections, state, model, host, -, -, -, rfl⟩ := compile_ok h
  rfl

theorem sections_of_compile (h : program.compile options = .ok compiled) :
    Compile.sections (program.setting options.backend) program {} =
      (.ok compiled.module.sections, compiled.state) :=
  (sections_graph_of_compile h).1

theorem exists_compiled (options : CompileOptions) (f : Compiled → α)
    (h : (program.compile options).map f = .ok a) :
    ∃ compiled, program.compile options = .ok compiled ∧ f compiled = a := by
  cases hcompile : program.compile options with
  | error e =>
    rw [hcompile] at h
    exact nomatch h
  | ok compiled =>
    rw [hcompile] at h
    exact ⟨compiled, rfl, Except.ok.inj h⟩

/-- A fixed program is held apart from what it is, so that it is only evaluated on purpose. -/
theorem exists_compiled_of {Q : Program → Prop} {P : Program → Compiled → Prop} (fixed : Program)
    (hfixed : Q fixed) (hok : (fixed.compile options).isOk = true)
    (h : ∀ program compiled, program = fixed → Q program →
      program.compile options = .ok compiled → P program compiled) :
    ∃ program compiled, Q program ∧ program.compile options = .ok compiled ∧
      P program compiled := by
  cases hcompile : fixed.compile options with
  | error e => cases hcompile ▸ hok
  | ok compiled => exact ⟨fixed, compiled, hfixed, hcompile, h fixed compiled rfl hfixed hcompile⟩

theorem compiled_eq (f : Compiled → α) (h : program.compile options = .ok compiled)
    (hf : (program.compile options).map f = .ok a) : f compiled = a := by
  rw [h] at hf
  exact Except.ok.inj hf

/-- What is found by evaluation may be used for the rest. -/
theorem compiled_and (f : Compiled → α) {P : Prop} (h : program.compile options = .ok compiled)
    (hf : (program.compile options).map f = .ok a) (hP : f compiled = a → P) :
    f compiled = a ∧ P :=
  have hfound := compiled_eq f h hf
  ⟨hfound, hP hfound⟩

end AgentLang.Program
