import AgentLang.Proofs.Number.Written
import AgentLang.Proofs.Syntax.WellFormed
import AgentLang.Target.Schema

/-!
# Types that can be emitted

A type of the language has an annotation and a schema as soon as the numbers in it can be read.
-/

namespace AgentLang.Ty

/-- Whole numbers have no more digits than can be read. -/
def Short : Ty → Prop
  | .array element => element.Short
  | .number value =>
    '.' ∈ value.toList ∨ value.toList.countP Text.isDecimal ≤ Number.mostDigits
  | _ => True

/-- The type has an annotation and a schema. -/
structure Coded (type : Ty) : Prop where
  code : type.typeCode?.isSome = true
  schema : type.schema?.isSome = true

theorem WellFormed.coded {type : Ty} (h : type.WellFormed) (hshort : type.Short) : type.Coded := by
  induction h with
  | named known =>
    simp only [primitiveNames, List.mem_cons, List.not_mem_nil, or_false] at known
    rcases known with rfl | rfl | rfl <;> exact ⟨rfl, rfl⟩
  | array inner ih =>
    have hinner := ih hshort
    exact ⟨by rw [typeCode?, Option.isSome_map, hinner.code],
      by rw [schema?, Option.isSome_map, hinner.schema]⟩
  | text value => exact ⟨rfl, rfl⟩
  | number written =>
    have hread := Number.Constant.ofText?_isSome written hshort
    exact ⟨by rw [typeCode?, number?, Option.isSome_map, Option.isSome_map, hread],
      by rw [schema?, number?, Option.isSome_map, Option.isSome_map, hread]⟩
  | boolean value => exact ⟨rfl, rfl⟩

theorem responseSchema?_isSome (h : ∀ t ∈ type, t.Coded) :
    (responseSchema? type).isSome = true := by
  cases type with
  | none => rfl
  | some type => exact (h type rfl).schema

end AgentLang.Ty
