import AgentLang.Compile.Context
import AgentLang.Proofs.Target.Temporaries

/-!
# Histories of a context

Whatever is done with a context, what is open can be read off the history of operations. The stacks
hold what the open operations put there, so closing one of these leaves them as they were when it
was opened, and the tools that it set aside come back. No name is given out twice.
-/

namespace AgentLang

open List

variable {σ τ ι : Type} {op : ContextOp σ τ ι} {history before : List (ContextOp σ τ ι)}

namespace ContextOp

/-- The scope that the operation enters. -/
def frame? : ContextOp σ τ ι → Option (Frame σ τ)
  | .enter scope returns => some ⟨scope, returns⟩
  | _ => none

/-- The type that the operation makes expected. -/
def expectation? : ContextOp σ τ ι → Option (Option τ)
  | .expecting type => some type
  | _ => none

def opens : ContextOp σ τ ι → Bool
  | .enter .. | .expecting _ | .toolScope => true
  | _ => false

/-- What is open after a history of operations, the latest first. These are the operations that
opened it, the innermost first, each with the history before it. -/
def openings : List (ContextOp σ τ ι) → List (ContextOp σ τ ι × List (ContextOp σ τ ι))
  | [] => []
  | .leave :: history => (openings history).tail
  | op :: history => if op.opens then (op, history) :: openings history else openings history

theorem openings_cons (op : ContextOp σ τ ι) (history : List (ContextOp σ τ ι)) :
    (op.opens = true ∧ openings (op :: history) = (op, history) :: openings history) ∨
      (op = .leave ∧ openings (op :: history) = (openings history).tail) ∨
      (op.opens = false ∧ op ≠ .leave ∧ openings (op :: history) = openings history) := by
  cases op with
  | leave => exact .inr (.inl ⟨rfl, rfl⟩)
  | enter | expecting | toolScope => exact .inl ⟨rfl, rfl⟩
  | _ => exact .inr (.inr ⟨rfl, nofun, rfl⟩)

/-- Around an open operation is open what was open before it. -/
theorem openings_of_suffix (h : (op, before) :: rest <:+ openings history) :
    openings before = rest ∧ op :: before <:+ history := by
  induction history with
  | nil => cases suffix_nil.mp h
  | cons latest history ih =>
    suffices hcases : (op = latest ∧ before = history ∧ rest = openings history) ∨
        (op, before) :: rest <:+ openings history by
      rcases hcases with ⟨rfl, rfl, rfl⟩ | hinner
      · exact ⟨rfl, suffix_rfl⟩
      · exact ⟨(ih hinner).1, (ih hinner).2.trans (suffix_cons latest history)⟩
    rcases openings_cons latest history with ⟨-, heq⟩ | ⟨-, heq⟩ | ⟨-, -, heq⟩ <;> rw [heq] at h
    · rcases suffix_cons_iff.mp h with hlatest | hinner
      · simp_all
      · exact .inr hinner
    · exact .inr (h.trans (tail_suffix _))
    · exact .inr h

end ContextOp

namespace ContextRun

open ContextOp (openings)

/-- The run after an operation, which changes nothing where it has no result. -/
def next (run : ContextRun σ τ ι) (op : ContextOp σ τ ι) : ContextRun σ τ ι :=
  ((run.step? op).map Prod.snd).getD run

/-- The run after a history of operations, the latest first. -/
def after (start : ContextRun σ τ ι) (history : List (ContextOp σ τ ι)) : ContextRun σ τ ι :=
  history.foldr (fun op run => run.next op) start

/-- The fresh names that were given out in a history, the latest first. -/
def names (start : ContextRun σ τ ι) : List (ContextOp σ τ ι) → List String
  | [] => []
  | op :: history =>
    match (start.after history).step? op with
    | some (.name name, _) => name :: start.names history
    | _ => start.names history

/-- How what an operation opened will be closed. -/
def closing (start : ContextRun σ τ ι) : ContextOp σ τ ι × List (ContextOp σ τ ι) → Closing
  | (.enter .., _) => .scope
  | (.expecting _, _) => .expectation
  | (_, before) => .tools (start.after before).context.pendingTools

/-- The stacks hold what the open operations put there. -/
structure Tracks (start : ContextRun σ τ ι)
    (opened : List (ContextOp σ τ ι × List (ContextOp σ τ ι))) (run : ContextRun σ τ ι) : Prop where
  outermost : run.context.outermost = start.context.outermost
  closings : run.opened = opened.map start.closing
  frames : run.context.frames = opened.filterMap (·.1.frame?)
  expectations : run.context.expectations = opened.filterMap (·.1.expectation?)

variable {start run : ContextRun σ τ ι} {opened : List (ContextOp σ τ ι × List (ContextOp σ τ ι))}

theorem Tracks.open (h : Tracks start opened (start.after history)) (hop : op.opens = true) :
    Tracks start ((op, history) :: opened) ((start.after history).next op) := by
  cases op with
  | enter scope returns =>
    exact ⟨h.outermost, congrArg _ h.closings, congrArg _ h.frames, h.expectations⟩
  | expecting type =>
    exact ⟨h.outermost, congrArg _ h.closings, h.frames, congrArg _ h.expectations⟩
  | toolScope => exact ⟨h.outermost, congrArg _ h.closings, h.frames, h.expectations⟩
  | _ => cases hop

theorem Tracks.leave (h : Tracks start opened run) :
    Tracks start opened.tail (run.next .leave) := by
  obtain ⟨⟨outermost, counter, frames, expectations, hoisted, pending⟩, closings⟩ := run
  obtain ⟨houtermost, rfl, rfl, rfl⟩ := h
  obtain _ | ⟨⟨op, before⟩, rest⟩ := opened
  · exact ⟨houtermost, rfl, rfl, rfl⟩
  · cases op <;> exact ⟨houtermost, rfl, rfl, rfl⟩

theorem Tracks.keep (h : Tracks start opened run) (hop : op.opens = false) (hleave : op ≠ .leave) :
    Tracks start opened (run.next op) := by
  obtain ⟨⟨outermost, counter, frames, expectations, hoisted, pending⟩, closings⟩ := run
  cases op with
  | enter | expecting | toolScope => cases hop
  | leave => exact absurd rfl hleave
  | popHoist | hoist => cases hoisted <;> exact ⟨h.outermost, h.closings, h.frames, h.expectations⟩
  | _ => exact ⟨h.outermost, h.closings, h.frames, h.expectations⟩

theorem after_tracks (outermost : σ) (history : List (ContextOp σ τ ι)) :
    Tracks ⟨{ outermost := outermost }, []⟩ (openings history)
      (after ⟨{ outermost := outermost }, []⟩ history) := by
  induction history with
  | nil => exact ⟨rfl, rfl, rfl, rfl⟩
  | cons op history ih =>
    rcases ContextOp.openings_cons op history with ⟨hop, heq⟩ | ⟨rfl, heq⟩ | ⟨hop, hleave, heq⟩
    · rw [heq]
      exact ih.open hop
    · rw [heq]
      exact ih.leave
    · rw [heq]
      exact ih.keep hop hleave

theorem Tracks.scopes_eq (h : Tracks start opened run) (h' : Tracks start opened run') :
    run.context.scopes = run'.context.scopes ∧ run.context.returnTypes = run'.context.returnTypes ∧
      run.context.expectations = run'.context.expectations := by
  have hframes := h.frames.trans h'.frames.symm
  refine ⟨?_, ?_, h.expectations.trans h'.expectations.symm⟩
  · rw [Context.scopes, Context.scopes, hframes, h.outermost, h'.outermost]
  · rw [Context.returnTypes, Context.returnTypes, hframes]

/-! ### Fresh names -/

theorem step?_counter (h : run.step? op = some (reply, run')) :
    run.context.counter ≤ run'.context.counter ∧
      ∀ name, reply = .name name → run.context.counter < run'.context.counter ∧
        ∃ word, name = Target.numbered word run'.context.counter := by
  obtain ⟨⟨outermost, counter, frames, expectations, hoisted, pending⟩, closings⟩ := run
  cases op with
  | leave =>
    obtain _ | ⟨_ | _ | saved, rest⟩ := closings
    · cases h
    all_goals
      cases h
      exact ⟨Nat.le_refl _, nofun⟩
  | popHoist | hoist =>
    cases hoisted with
    | nil => cases h
    | cons waiting rest =>
      cases h
      exact ⟨Nat.le_refl _, nofun⟩
  | freshName word =>
    cases h
    refine ⟨Nat.le_succ _, fun name hname => ⟨Nat.lt_succ_self _, word, ?_⟩⟩
    cases hname
    rfl
  | nextIndex =>
    cases h
    exact ⟨Nat.le_succ _, nofun⟩
  | _ =>
    cases h
    exact ⟨Nat.le_refl _, nofun⟩

/-- The names given out so far have all different numbers, up to the counter. -/
theorem names_numbered (start : ContextRun σ τ ι) (history : List (ContextOp σ τ ι)) :
    (start.names history).Nodup ∧ ∀ name ∈ start.names history, ∃ word index,
      name = Target.numbered word index ∧ index ≤ (start.after history).context.counter := by
  induction history with
  | nil => exact ⟨.nil, nofun⟩
  | cons op history ih =>
    obtain ⟨hdistinct, hbelow⟩ := ih
    have hafter : start.after (op :: history) = (start.after history).next op := rfl
    cases hstep : (start.after history).step? op with
    | none =>
      rw [hafter, next, hstep, names, hstep]
      exact ⟨hdistinct, hbelow⟩
    | some result =>
      obtain ⟨reply, run⟩ := result
      obtain ⟨hle, hname⟩ := step?_counter hstep
      have hkept : ∀ name ∈ start.names history, ∃ word index,
          name = Target.numbered word index ∧ index ≤ run.context.counter := by
        intro name hmem
        obtain ⟨word, index, heq, hindex⟩ := hbelow name hmem
        exact ⟨word, index, heq, hindex.trans hle⟩
      rw [hafter, next, hstep, names, hstep]
      cases reply with
      | name name =>
        obtain ⟨hlt, word, heq⟩ := hname name rfl
        refine ⟨nodup_cons.mpr ⟨fun hmem => ?_, hdistinct⟩,
          forall_mem_cons.mpr ⟨⟨word, _, heq, Nat.le_refl _⟩, hkept⟩⟩
        -- the number of the new name is above all others
        obtain ⟨word', index, heq', hindex⟩ := hbelow name hmem
        have hsame := (Target.numbered_inj (heq.symm.trans heq')).2
        omega
      | _ => exact ⟨hdistinct, hkept⟩

/-- The scopes of a context are the outermost one and one for each open scope, which also has a type
that it returns, and one type is expected for each open expectation. Closing what was opened last
leaves these stacks as they were before it was opened, and the tools as well if it set them aside.
No two fresh names are the same. -/
theorem after_restores (outermost : σ) (history : List (ContextOp σ τ ι)) :
    let start : ContextRun σ τ ι := ⟨{ outermost := outermost }, []⟩
    let context := (start.after history).context
    context.scopes.length = (openings history).countP (·.1.frame?.isSome) + 1 ∧
      context.scopes.head? = some outermost ∧
      context.returnTypes.length = (openings history).countP (·.1.frame?.isSome) ∧
      context.expectations.length = (openings history).countP (·.1.expectation?.isSome) ∧
      (∀ op before rest, openings history = (op, before) :: rest →
        op :: before <:+ history ∧
        (start.after (.leave :: history)).context.scopes = (start.after before).context.scopes ∧
        (start.after (.leave :: history)).context.returnTypes =
          (start.after before).context.returnTypes ∧
        (start.after (.leave :: history)).context.expectations =
          (start.after before).context.expectations ∧
        (op = .toolScope → (start.after (.leave :: history)).context.pendingTools =
          (start.after before).context.pendingTools)) ∧
      (start.names history).Nodup := by
  intro start context
  have htracks : Tracks start (openings history) (start.after history) :=
    after_tracks outermost history
  have hframes : context.frames.length = (openings history).countP (·.1.frame?.isSome) := by
    rw [htracks.frames, length_filterMap_eq_countP]
  refine ⟨?_, ?_, ?_, ?_, fun op before rest h => ?_, (names_numbered start history).1⟩
  · simp [Context.scopes, hframes]
  · exact congrArg some htracks.outermost
  · simp [Context.returnTypes, hframes]
  · rw [htracks.expectations, length_filterMap_eq_countP]
  · have hsuffix : (op, before) :: rest <:+ openings history := by rw [h]
    obtain ⟨hrest, hbefore⟩ := ContextOp.openings_of_suffix hsuffix
    have hclosed : openings (.leave :: history) = openings before :=
      (congrArg List.tail h).trans hrest.symm
    have htracks' := hclosed ▸ after_tracks outermost (.leave :: history)
    obtain ⟨hscopes, hreturns, hexpected⟩ := htracks'.scopes_eq (after_tracks outermost before)
    refine ⟨hbefore, hscopes, hreturns, hexpected, ?_⟩
    rintro rfl
    have hclosings := htracks.closings
    rw [h] at hclosings
    have hafter : start.after (.leave :: history) = (start.after history).next .leave := rfl
    rw [hafter, next, step?, close?, hclosings]
    rfl

theorem after_restores_tools :
    let start : ContextRun String String String := ⟨{ outermost := "module" }, []⟩
    let before := [.addTool "search", .freshName "a_1", .enter "function" none]
    let history := [.freshName "a", .takeTools, .addTool "fetch", .leave, .enter "node" none,
      .toolScope] ++ before
    openings history = (.toolScope, before) :: openings before ∧
      (start.after (.leave :: history)).context.pendingTools = ["search"] ∧
      (start.after (.leave :: history)).context.scopes = ["module", "function"] ∧
      start.names history = ["_a_2", "_a_1_1"] := by
  intro start before history
  obtain ⟨-, -, -, -, hclose, -⟩ := after_restores "module" history
  obtain ⟨-, hscopes, -, -, htools⟩ := hclose .toolScope before (openings before) rfl
  exact ⟨rfl, htools rfl, hscopes, by decide⟩

end ContextRun
end AgentLang
