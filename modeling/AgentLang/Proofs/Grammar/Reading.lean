import AgentLang.Proofs.Grammar.Termination
import AgentLang.Proofs.Parse.Memoisation

/-!
# Reading without a memory

What is read with a memory and within budgets is what the grammar says plainly, at any depth that
suffices.
-/

namespace AgentLang

namespace Grammar

open Parse (Cursor Reply)

theorem eval_of_run? (h : run? p text pos = some reply) :
    ∃ depth, grammar.eval (text.length + 2) depth p (Cursor.ofPos text pos) = some reply := by
  obtain ⟨⟨reply, memory⟩, hsession, rfl⟩ := Option.map_eq_some_iff.mp h
  obtain ⟨-, least, hleast⟩ := Parse.Grammar.eval_of_session (G := grammar)
    (Cursor.on_ofPos text pos) Parse.Grammar.faithful_empty hsession
  exact ⟨least, hleast least (Nat.le_refl _)⟩

theorem exists_session (p : Parser α) (text : List Char) (pos : Nat) :
    ∃ reply memory, grammar.session (text.length + 2) (depthFor text) p (Cursor.ofPos text pos) {} =
      some (reply, memory) := by
  obtain ⟨reply, memory, hstrict⟩ := strictSession_ends p text pos
  have hsession := Parse.Grammar.strictSession_below p (Cursor.ofPos text pos) {} _ hstrict
  exact ⟨reply, memory, hsession⟩

theorem exists_run? (p : Parser α) (text : List Char) (pos : Nat) :
    ∃ reply, run? p text pos = some reply := by
  obtain ⟨reply, memory, hsession⟩ := exists_session p text pos
  exact ⟨reply, congrArg (Option.map Prod.fst) hsession⟩

theorem run?_eq_some_iff :
    run? p text pos = some reply ↔
      ∃ depth, grammar.eval (text.length + 2) depth p (Cursor.ofPos text pos) = some reply := by
  refine ⟨eval_of_run?, fun ⟨depth, hplain⟩ => ?_⟩
  obtain ⟨found, hrun⟩ := exists_run? p text pos
  obtain ⟨depth', hfound⟩ := eval_of_run? hrun
  have hleft := Parse.Grammar.eval_mono (Nat.le_refl _) (Nat.le_max_left depth depth') hplain
  have hright := Parse.Grammar.eval_mono (Nat.le_refl _) (Nat.le_max_right depth depth') hfound
  rw [hrun, ← hright, hleft]

end Grammar

/-- A plain reply at some depth is enough to know what is read. -/
theorem Program.parse_eq_ok (depth : Nat)
    (h : Grammar.grammar.eval (source.toList.length + 2) depth Grammar.program (Parse.Cursor.ofPos
      source.toList 0) = some reply)
    (hreply : reply.outcome = .success program next) : Program.parse source file = .ok program := by
  obtain ⟨outcome, reach⟩ := reply
  cases hreply
  have hrun : Grammar.run? Grammar.program source.toList 0 = some ⟨.success program next, reach⟩ :=
    Grammar.run?_eq_some_iff.mpr ⟨depth, h⟩
  unfold Program.parse
  split
  next heq =>
    cases hrun.symm.trans heq
    rfl
  next heq => exact nomatch hrun.symm.trans heq
  next heq => exact nomatch hrun.symm.trans heq

theorem Program.parse_eq_error (depth : Nat)
    (h : Grammar.grammar.eval (source.toList.length + 2) depth Grammar.program (Parse.Cursor.ofPos
      source.toList 0) = some reply)
    (hreply : reply.outcome = .failure pos committed) :
    Program.parse source file =
      .error (Grammar.errorOf source file pos committed reply.reach) := by
  obtain ⟨outcome, reach⟩ := reply
  cases hreply
  have hrun : Grammar.run? Grammar.program source.toList 0 = some ⟨.failure pos committed, reach⟩ :=
    Grammar.run?_eq_some_iff.mpr ⟨depth, h⟩
  unfold Program.parse
  split
  next heq => exact nomatch hrun.symm.trans heq
  next heq =>
    cases hrun.symm.trans heq
    rfl
  next heq => exact nomatch hrun.symm.trans heq

end AgentLang
