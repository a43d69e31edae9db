import AgentLang.Proofs.Compile.Account

/-!
# Selections of tools

Every prompt offers the tools that are selected for it where the program is gone through: those since
the prompt before it in the same body, without what is inside of other definitions.
-/

namespace AgentLang.Program

open Compile
open Target (toolTable?)

variable {program : Program} {options : CompileOptions} {compiled : Compiled}

theorem toolTable?_eq_none_iff : toolTable? tools = none ↔ tools = [] := by
  unfold toolTable?
  cases tools <;> simp

end AgentLang.Program
