import AgentLang.Proofs.Compile.Discipline
import AgentLang.Proofs.Target.Parts

/-!
# Steps that only count

Many steps of compilation change nothing but the next number and the built-ins in use. Neither the
tools and statements that wait nor the known types depend on them.
-/

namespace AgentLang

/-- The names that a node makes known where it is compiled. -/
def Node.introduces? : Node → Option (List String)
  | .function name .. => some [name]
  | .graphNode name .. => some [name]
  | .importNames .named names _ => some names
  | .importNames _ (shortName :: _) _ => some [shortName]
  | .importNodes names _ => some names
  | .importTools names _ => some names
  | _ => none

namespace Compile

open Target (Code Purpose Stmt)

/-- Only numbers and built-ins have changed. -/
def State.SameButNumbers (s s' : State) : Prop :=
  s'.hints = s.hints ∧ s'.context = { s.context with counter := s'.context.counter }

instance : Std.Refl State.SameButNumbers where
  refl _ := ⟨rfl, rfl⟩

instance : IsTrans State State.SameButNumbers where
  trans _ _ _ h h' := ⟨h'.1.trans h.1, by rw [h'.2, h.2]⟩

namespace Build

variable {α β : Type} {step : Build α}

/-- Where the step ends, its result is as given and only numbers and built-ins have changed. -/
def Quiet (step : Build α) (P : α → Prop) : Prop :=
  ∀ s a s', step s = (.ok a, s') → P a ∧ s.SameButNumbers s'

section

variable {P : α → Prop} {R : β → Prop}

theorem quiet_pure (h : P a) : Quiet (pure a) P := by
  rintro s b s' heq
  cases heq
  exact ⟨h, refl_of State.SameButNumbers s⟩

theorem Fails.quiet (h : Fails step) : Quiet step P :=
  fun s a s' heq => absurd heq (h s a s')

theorem Quiet.bind (h : Quiet step P) (hnext : ∀ a, P a → Quiet (next a) R) :
    Quiet (step >>= next) R := by
  intro s b s' heq
  obtain ⟨a, middle, hstep, hrest⟩ := bind_ok heq
  obtain ⟨ha, hs⟩ := h s a middle hstep
  obtain ⟨hb, hmiddle⟩ := hnext a ha middle b s' hrest
  exact ⟨hb, trans_of State.SameButNumbers hs hmiddle⟩

theorem Moves.quiet (h : Moves State.SameButNumbers step) : Quiet step fun _ => True :=
  fun _ _ _ heq => ⟨trivial, h.of_eq heq⟩

end

theorem quiet_nextIndex : Quiet nextIndex fun _ => True :=
  Moves.quiet fun _ => ⟨rfl, rfl⟩

theorem quiet_fresh (purpose : Purpose) : Quiet (fresh purpose) fun _ => True :=
  quiet_nextIndex.bind fun _ _ => quiet_pure trivial

end Build

open Build

theorem quiet_callCode (setting : Setting) (name : String) (arguments : List Code) :
    Quiet (callCode setting name arguments) fun _ => True := by
  refine (moves_callCode (fun builtin s => ?_) name arguments).quiet
  change s.SameButNumbers (if builtin ∈ s.used then s else { s with used := s.used ++ [builtin] })
  split
  · exact refl_of State.SameButNumbers s
  · exact ⟨rfl, rfl⟩

/-! ### Single statements -/

/-- The statements hold no prompts, and make these names known. -/
structure Shows (names : List (List String)) (stmts : List Stmt) : Prop where
  prompts : (Stmt.listParts stmts).filterMap Stmt.prompt? = []
  names : (Stmt.listParts stmts).filterMap Stmt.introduces? = names

theorem quiet_gotoStmt (setting : Setting) (target : String) (arguments : List Code) :
    Quiet (gotoStmt setting target arguments) fun stmt => Shows [] [stmt] := by
  refine moves_scope.quiet.bind fun scope _ => ?_
  split <;> exact quiet_pure ⟨rfl, rfl⟩

theorem quiet_retStmt (setting : Setting) (value : Option Code) :
    Quiet (retStmt setting value) fun stmt => Shows [] [stmt] := by
  refine moves_scope.quiet.bind fun scope _ => ?_
  split <;> exact quiet_pure ⟨rfl, rfl⟩

theorem quiet_importStmt (kind : ImportKind) (names : List String) (path : String) :
    Quiet (importStmt kind names path) fun stmt =>
      Shows (Node.importNames kind names path).introduces?.toList [stmt] := by
  unfold importStmt
  split
  · exact quiet_pure ⟨rfl, rfl⟩
  · exact (fails_fail _).quiet
  · cases kind with
    | named => contradiction
    | whole | main => exact quiet_pure ⟨rfl, rfl⟩

/-- What is put around the body of a graph node counts for nothing that only looks at the body. -/
theorem filterMap_graphBody (hopening : ∀ names, f (.unpack names) = none)
    (hclosing : f .retState = none) (parameters : List Parameter) (inner : List Node)
    (stmts : List Stmt) :
    (Stmt.listParts
      ((if parameters.isEmpty then [] else [Stmt.unpack (parameters.map (·.name))]) ++ stmts ++
        if endsInTransfer inner then [] else [Stmt.retState])).filterMap f =
      (Stmt.listParts stmts).filterMap f := by
  have hfirst : (Stmt.listParts (if parameters.isEmpty then []
      else [Stmt.unpack (parameters.map (·.name))])).filterMap f = [] := by
    split
    · rfl
    · exact List.filterMap_cons_none (hopening _)
  have hlast : (Stmt.listParts
      (if endsInTransfer inner then [] else [Stmt.retState])).filterMap f = [] := by
    split
    · rfl
    · exact List.filterMap_cons_none hclosing
  rw [Stmt.listParts_append, Stmt.listParts_append, List.filterMap_append, List.filterMap_append,
    hfirst, hlast, List.nil_append, List.append_nil]

end Compile
end AgentLang
