import AgentLang.Json.Checked

/-!
# Laws of readers

For every way of building a reader there are two laws: which documents it surely reads, and what
holds of all that it reads.
-/

namespace AgentLang.Json

variable {α β : Type}

namespace Checked

theorem map_eq_valid {f : α → β} {x : Checked α} {y : β} :
    f <$> x = .valid y ↔ ∃ value, x = .valid value ∧ y = f value := by
  constructor
  · intro h
    cases x with
    | valid value => exact ⟨value, rfl, (Checked.valid.inj h).symm⟩
    | refused issues => cases h
  · rintro ⟨value, rfl, rfl⟩
    rfl

theorem seq_eq_valid {f : Checked (α → β)} {x : Checked α} {y : β} :
    f <*> x = .valid y ↔ ∃ g value, f = .valid g ∧ x = .valid value ∧ y = g value := by
  constructor
  · intro h
    cases f with
    | refused issues => cases x <;> cases h
    | valid g =>
      cases x with
      | valid value => exact ⟨g, value, rfl, rfl, (Checked.valid.inj h).symm⟩
      | refused issues => cases h
  · rintro ⟨g, value, rfl, rfl, rfl⟩
    rfl

section Several

variable {α₁ α₂ α₃ α₄ α₅ : Type} {x₁ : Checked α₁} {x₂ : Checked α₂} {x₃ : Checked α₃}
  {x₄ : Checked α₄} {x₅ : Checked α₅} {y : β}

theorem map₂_eq_valid {f : α₁ → α₂ → β} :
    f <$> x₁ <*> x₂ = .valid y ↔
      ∃ v₁ v₂, x₁ = .valid v₁ ∧ x₂ = .valid v₂ ∧ y = f v₁ v₂ := by
  constructor
  · intro h
    obtain ⟨g, v₂, hg, h₂, rfl⟩ := seq_eq_valid.mp h
    obtain ⟨v₁, h₁, rfl⟩ := map_eq_valid.mp hg
    exact ⟨v₁, v₂, h₁, h₂, rfl⟩
  · rintro ⟨v₁, v₂, rfl, rfl, rfl⟩
    rfl

theorem map₃_eq_valid {f : α₁ → α₂ → α₃ → β} :
    f <$> x₁ <*> x₂ <*> x₃ = .valid y ↔
      ∃ v₁ v₂ v₃, x₁ = .valid v₁ ∧ x₂ = .valid v₂ ∧ x₃ = .valid v₃ ∧ y = f v₁ v₂ v₃ := by
  constructor
  · intro h
    obtain ⟨g, v₃, hg, h₃, rfl⟩ := seq_eq_valid.mp h
    obtain ⟨v₁, v₂, h₁, h₂, rfl⟩ := map₂_eq_valid.mp hg
    exact ⟨v₁, v₂, v₃, h₁, h₂, h₃, rfl⟩
  · rintro ⟨v₁, v₂, v₃, rfl, rfl, rfl, rfl⟩
    rfl

theorem map₅_eq_valid {f : α₁ → α₂ → α₃ → α₄ → α₅ → β} :
    f <$> x₁ <*> x₂ <*> x₃ <*> x₄ <*> x₅ = .valid y ↔
      ∃ v₁ v₂ v₃ v₄ v₅, x₁ = .valid v₁ ∧ x₂ = .valid v₂ ∧ x₃ = .valid v₃ ∧ x₄ = .valid v₄ ∧
        x₅ = .valid v₅ ∧ y = f v₁ v₂ v₃ v₄ v₅ := by
  constructor
  · intro h
    obtain ⟨g₄, v₅, hg₄, h₅, rfl⟩ := seq_eq_valid.mp h
    obtain ⟨g₃, v₄, hg₃, h₄, rfl⟩ := seq_eq_valid.mp hg₄
    obtain ⟨v₁, v₂, v₃, h₁, h₂, h₃, rfl⟩ := map₃_eq_valid.mp hg₃
    exact ⟨v₁, v₂, v₃, v₄, v₅, h₁, h₂, h₃, h₄, h₅, rfl⟩
  · rintro ⟨v₁, v₂, v₃, v₄, v₅, rfl, rfl, rfl, rfl, rfl, rfl⟩
    rfl

end Several

end Checked

namespace Reader

variable {read : Reader α} {P : α → Prop} {name : String} {location : List Key} {fields : Fields}
  {json : Json} {value : α}

/-! ### What is surely read -/

/-- A document is read as a value wherever it stands. -/
def Reads (read : Reader α) (json : Json) (value : α) : Prop :=
  ∀ location, read location json = .valid value

theorem reads_text (word : String) : Reads text (.string word) word := fun _ => rfl

theorem reads_flag (value : Bool) : Reads flag (.bool value) value := fun _ => rfl

theorem reads_listOf (h : ∀ value ∈ values, Reads read (encode value) value) :
    Reads (listOf read) (.array (values.map encode)) values := by
  intro location
  rw [listOf]
  generalize 0 = index
  induction values generalizing index with
  | nil => rfl
  | cons value rest ih =>
    obtain ⟨hvalue, hrest⟩ := List.forall_mem_cons.mp h
    rw [List.map_cons, itemsFrom, hvalue, ih hrest]
    rfl

theorem reads_nonemptyOf (hne : values ≠ []) (h : ∀ value ∈ values, Reads read (encode value) value) :
    Reads (nonemptyOf read) (.array (values.map encode)) values := by
  cases values with
  | nil => exact absurd rfl hne
  | cons value rest => exact reads_listOf h

theorem reads_nullable_null (read : Reader α) : Reads (nullable read) .null none := fun _ => rfl

theorem reads_nullable_some (hnull : json ≠ .null) (h : Reads read json value) :
    Reads (nullable read) json (some value) := by
  intro location
  rw [nullable, h]
  · rfl
  · exact hnull

theorem reads_wordOf (h : known word = some value) :
    Reads (wordOf known kind) (.string word) value := by
  intro location
  rw [wordOf, h]

theorem reads_union (hkind : kind ∈ kinds)
    (hselector : fields.lookup selector = some (.string kind))
    (h : ∀ location, member kind location fields = .valid value) :
    Reads (union selector kinds member) (.object fields) value := by
  intro location
  simp [union, hselector, hkind, h]

theorem required_eq (hfield : fields.lookup name = some json) (h : Reads read json value) :
    required name read location fields = .valid value := by
  rw [required, hfield]
  exact h _

theorem map_required_eq {f : α → β} (hfield : fields.lookup name = some json)
    (h : Reads read json value) : f <$> required name read location fields = .valid (f value) :=
  Checked.map_eq_valid.mpr ⟨value, required_eq hfield h, rfl⟩

theorem defaulted_eq (hfield : fields.lookup name = some json) (h : Reads read json value) :
    defaulted name fallback read location fields = .valid value := by
  rw [defaulted, hfield]
  exact h _

theorem constant_eq (hfield : fields.lookup name = some (.string word)) :
    constant name word location fields = .valid () :=
  defaulted_eq hfield (reads_wordOf (if_pos rfl))

/-! ### What holds of all that is read -/

/-- Whatever is read has a property. -/
def Gives (read : Reader α) (P : α → Prop) : Prop :=
  ∀ location json value, read location json = .valid value → P value

theorem gives_itemsFrom (h : read.Gives P)
    (hread : itemsFrom read location index items = .valid values) : ∀ value ∈ values, P value := by
  induction items generalizing index values with
  | nil =>
    cases hread
    simp
  | cons item items ih =>
    obtain ⟨value, rest, hvalue, hrest, rfl⟩ := Checked.map₂_eq_valid.mp hread
    exact List.forall_mem_cons.mpr ⟨h _ _ _ hvalue, ih hrest⟩

theorem Gives.listOf (h : read.Gives P) : (listOf read).Gives fun values => ∀ v ∈ values, P v := by
  intro location json values hread
  cases json with
  | array items => exact gives_itemsFrom h hread
  | _ => cases hread

theorem Gives.nonemptyOf (h : read.Gives P) :
    (nonemptyOf read).Gives fun values => values ≠ [] ∧ ∀ v ∈ values, P v := by
  intro location json values hread
  cases json with
  | array items =>
    cases items with
    | nil => cases hread
    | cons item items =>
      refine ⟨?_, gives_itemsFrom h hread⟩
      rintro rfl
      obtain ⟨value, rest, -, -, hnil⟩ := Checked.map₂_eq_valid.mp hread
      cases hnil
  | _ => cases hread

theorem Gives.nullable (h : read.Gives P) : (nullable read).Gives fun o => ∀ v ∈ o, P v := by
  intro location json o hread
  cases json with
  | null =>
    cases hread
    simp
  | _ =>
    obtain ⟨value, hvalue, rfl⟩ := Checked.map_eq_valid.mp hread
    rintro v ⟨⟩
    exact h _ _ _ hvalue

theorem gives_union
    (h : ∀ kind ∈ kinds, ∀ location fields value, member kind location fields = .valid value →
      P value) :
    (union selector kinds member).Gives P := by
  intro location json value hread
  cases json with
  | object fields =>
    rw [union] at hread
    split at hread
    · cases hread
    · split at hread
      · next hkind => exact h _ hkind _ _ _ hread
      · cases hread
    · cases hread
  | _ => cases hread

theorem Gives.required (h : read.Gives P) (hread : required name read location fields = .valid value) :
    P value := by
  rw [Reader.required] at hread
  split at hread
  · exact h _ _ _ hread
  · cases hread

theorem Gives.defaulted (h : read.Gives P) (hfallback : P fallback)
    (hread : defaulted name fallback read location fields = .valid value) : P value := by
  rw [Reader.defaulted] at hread
  split at hread
  · exact h _ _ _ hread
  · cases hread
    exact hfallback

theorem Gives.model {read : List Key → Fields → Checked α}
    (h : ∀ location fields value, read location fields = .valid value → P value) :
    (model read).Gives P := by
  intro location json value hread
  cases json with
  | object fields => exact h _ _ _ hread
  | _ => cases hread

end Reader
end AgentLang.Json
