import AgentLang.Grammar.Source
import AgentLang.Proofs.Parse.Termination

/-!
# Reading always ends

No rule of the language matches nothing, and before it has matched anything a rule only tries rules
of a lower rank. So the language has no left recursion, and a text is read within budgets that its
length gives.
-/

namespace AgentLang.Grammar

open Parse (Cursor)

/-- The order in which rules try each other at the same place. -/
def rank : Rule → Nat
  | .type | .number | .prompt | .call | .array | .object | .ifElse => 0
  | .scalar | .access => 1
  | .literal => 2
  | .argument | .item | .operand => 3
  | .binary => 4
  | .value | .condition => 5
  | .armBody | .statement => 6

theorem rank_lt (r : Rule) : rank r < Rule.all.length := by
  cases r <;> decide

theorem body_not_nullable (r : Rule) : (bodyOf r).nullable (fun _ => false) = false := by
  cases r <;> decide

theorem rank_lt_of_leading (r : Rule) :
    ∀ r' ∈ (bodyOf r).leading fun _ => false, rank r' < rank r := by
  cases r <;> decide

theorem grammar_guarded : grammar.Guarded (fun _ => false) rank where
  nullable r _ := body_not_nullable r
  descending := rank_lt_of_leading

theorem strictSession_ends (p : Parser α) (text : List Char) (pos : Nat) :
    ∃ reply memory,
      grammar.strictSession (text.length + 2) (depthFor text) p (Cursor.ofPos text pos) {} =
        some (reply, memory) := by
  have hdepth : Rule.all.length * (text.length + 1) ≤ depthFor text :=
    Nat.le_succ_of_le (Nat.mul_le_mul_left _ (Nat.le_succ _))
  obtain ⟨reply, memory, hstrict, -, -⟩ :=
    Parse.Grammar.strictSession_finishes grammar_guarded rank_lt (Nat.le_refl _) hdepth p
      (Cursor.on_ofPos text pos) {} Parse.Grammar.Memory.all_empty
  exact ⟨reply, memory, hstrict⟩

/-- A parser of the language ends on every text and from every position, also where a rule that is
still being read may only be entered again further on, with as many rounds of a repetition as the
text has characters and two more. This is the run that reads source texts. -/
theorem run_ends {α : Type} (p : Parser α) (text : List Char) (pos : Nat) :
    ∃ reply memory,
      grammar.strictSession (text.length + 2) (depthFor text) p (Cursor.ofPos text pos) {} =
        some (reply, memory) ∧
      grammar.session (text.length + 2) (depthFor text) p (Cursor.ofPos text pos) {} =
        some (reply, memory) ∧
      run? p text pos = some reply := by
  obtain ⟨reply, memory, hstrict⟩ := strictSession_ends p text pos
  have hsession := Parse.Grammar.strictSession_below p (Cursor.ofPos text pos) {} _ hstrict
  refine ⟨reply, memory, hstrict, hsession, ?_⟩
  exact congrArg (Option.map (·.1)) hsession

end AgentLang.Grammar
