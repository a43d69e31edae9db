/-!
# Sets of names

A finite set of names is its strictly ascending list, so two sets with the same members are equal
and listing a set sorts it.
-/

namespace AgentLang

structure Names where
  list : List String
  ascending : list.Pairwise (· < ·)
  deriving DecidableEq

namespace Names

def empty : Names := ⟨[], .nil⟩

def single (name : String) : Names := ⟨[name], List.pairwise_singleton _ _⟩

def place (name : String) : List String → List String
  | [] => [name]
  | first :: others =>
    if name < first then name :: first :: others
    else if first < name then first :: place name others
    else first :: others

theorem mem_place {name x : String} {names : List String} :
    x ∈ place name names ↔ x = name ∨ x ∈ names := by
  induction names with
  | nil => simp [place]
  | cons first others ih =>
    simp only [place]
    split
    · simp
    · split
      · simp [ih]; grind
      · have : name = first := String.le_antisymm (by grind) (by grind)
        simp [this]

theorem ascending_place {name : String} {names : List String} (h : names.Pairwise (· < ·)) :
    (place name names).Pairwise (· < ·) := by
  induction names with
  | nil => simp [place]
  | cons first others ih =>
    rw [List.pairwise_cons] at h
    simp only [place]
    split
    · rename_i below
      refine List.pairwise_cons.mpr ⟨fun x hx => ?_, List.pairwise_cons.mpr h⟩
      rcases List.mem_cons.mp hx with rfl | hx
      · exact below
      · exact String.lt_trans below (h.1 x hx)
    · split
      · rename_i above
        refine List.pairwise_cons.mpr ⟨fun x hx => ?_, ih h.2⟩
        rcases mem_place.mp hx with rfl | hx
        · exact above
        · exact h.1 x hx
      · exact List.pairwise_cons.mpr h

def insert (name : String) (names : Names) : Names :=
  ⟨place name names.list, ascending_place names.ascending⟩

def union (left right : Names) : Names :=
  right.list.foldl (fun names name => names.insert name) left

def ofList (names : List String) : Names :=
  names.foldl (fun set name => set.insert name) empty

instance : Membership String Names := ⟨fun names name => name ∈ names.list⟩
instance : Union Names := ⟨union⟩
instance : EmptyCollection Names := ⟨empty⟩
instance : Singleton String Names := ⟨single⟩

end Names
end AgentLang
