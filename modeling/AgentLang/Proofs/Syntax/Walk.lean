import AgentLang.Compile.Declared
import AgentLang.Proofs.Syntax.WellFormed

/-!
# Nodes at all depths

A walk through a program meets every node together with those inside it. What is well-formed is so
at every depth.
-/

namespace AgentLang

open List

namespace Node

/-- The types that a node itself is annotated with. -/
def types : Node → List Ty
  | .parameter declared => declared.hint.toList
  | .function _ parameters _ returns _ => parameters.filterMap Parameter.hint ++ returns.toList
  | .graphNode _ parameters _ returns _ => parameters.filterMap Parameter.hint ++ returns.toList
  | .assign _ declared _ => declared.toList
  | .hint _ type => [type]
  | _ => []

theorem wellFormed_signature {parameters : List Parameter} {returns : Option Ty}
    (heads : ∀ parameter ∈ parameters, parameter.WellFormed)
    (result : ∀ type ∈ returns, type.WellFormed) :
    ∀ type ∈ parameters.filterMap Parameter.hint ++ returns.toList, type.WellFormed := by
  intro type htype
  rcases mem_append.mp htype with htype | htype
  · obtain ⟨declared, hmem, hhint⟩ := mem_filterMap.mp htype
    exact heads declared hmem type hhint
  · exact result type (Option.mem_toList.mp htype)

theorem WellFormed.types {n : Node} (h : n.WellFormed) : ∀ type ∈ n.types, type.WellFormed := by
  intro type htype
  cases h with
  | function _ _ heads _ result | graphNode _ _ heads _ result =>
    exact wellFormed_signature heads result type htype
  | assign _ hinted => exact hinted type (Option.mem_toList.mp htype)
  | hint _ hinted => exact List.mem_singleton.mp htype ▸ hinted
  | _ => exact nomatch htype

theorem mem_walk_self (intoDefinitions : Bool) (n : Node) : n ∈ n.walk intoDefinitions := by
  cases n <;> exact mem_cons_self

theorem mem_walkList (hn : n ∈ nodes) (hm : m ∈ n.walk b) : m ∈ walkList b nodes := by
  induction nodes with
  | nil => exact nomatch hn
  | cons first rest ih =>
    rcases mem_cons.mp hn with rfl | hn
    · exact mem_append_left _ hm
    · exact mem_append_right _ (ih hn)

/-- Nodes inside a definition are only walked through on demand. -/
theorem mem_walkList_of_inside (h : m ∈ if b then walkList b body else []) :
    m ∈ walkList b body := by
  cases b with
  | true => exact h
  | false => exact nomatch h

mutual

theorem wellFormed_walk (n : Node) (h : n.WellFormed) : ∀ m ∈ n.walk b, m.WellFormed := by
  intro m hm
  have hself := h
  cases h with
  | function _ _ _ inner | graphNode _ _ _ inner =>
    rcases mem_cons.mp hm with rfl | hm
    · exact hself
    · exact wellFormed_walkList _ inner m (mem_walkList_of_inside hm)
  | ifElse _ _ inner other =>
    rcases mem_cons.mp hm with rfl | hm
    · exact hself
    · rcases mem_append.mp hm with hm | hm
      · exact wellFormed_walkList _ inner m hm
      · exact wellFormed_walkOption _ other m hm
  | loop _ _ inner | thread _ inner | timed _ inner =>
    rcases mem_cons.mp hm with rfl | hm
    · exact hself
    · exact wellFormed_walkList _ inner m hm
  | select _ choices =>
    rcases mem_cons.mp hm with rfl | hm
    · exact hself
    · exact wellFormed_walkArms _ choices m hm
  | assign _ _ _ content =>
    rcases mem_cons.mp hm with rfl | hm
    · exact hself
    · exact wellFormed_walk _ content m hm
  | _ => exact List.mem_singleton.mp hm ▸ hself

theorem wellFormed_walkList (nodes : List Node) (h : ∀ n ∈ nodes, n.WellFormed) :
    ∀ m ∈ walkList b nodes, m.WellFormed := by
  intro m hm
  cases nodes with
  | nil => exact nomatch hm
  | cons n rest =>
    rw [forall_mem_cons] at h
    rcases mem_append.mp hm with hm | hm
    · exact wellFormed_walk n h.1 m hm
    · exact wellFormed_walkList rest h.2 m hm

theorem wellFormed_walkOption (nodes : Option (List Node))
    (h : ∀ inner ∈ nodes, ∀ n ∈ inner, n.WellFormed) : ∀ m ∈ walkOption b nodes, m.WellFormed := by
  intro m hm
  cases nodes with
  | none => exact nomatch hm
  | some inner => exact wellFormed_walkList inner (h inner rfl) m hm

theorem wellFormed_walkArms (arms : List Arm) (h : ∀ arm ∈ arms, arm.WellFormed) :
    ∀ m ∈ walkArms b arms, m.WellFormed := by
  intro m hm
  cases arms with
  | nil => exact nomatch hm
  | cons arm rest =>
    rw [forall_mem_cons] at h
    cases arm with
    | comment text => exact wellFormed_walkArms rest h.2 m hm
    | arm value body =>
      cases h.1 with
      | arm test inner =>
        rcases mem_append.mp hm with hm | hm
        · exact wellFormed_walk body inner m hm
        · exact wellFormed_walkArms rest h.2 m hm

end

end Node
end AgentLang
