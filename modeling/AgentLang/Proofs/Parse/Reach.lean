import AgentLang.Parse.Reach

/-!
# Joining what failures reach

A finding stands for the failures that were met: the furthest position among them, and the names
that were missed there. Joining two findings stands for the failures of both.
-/

namespace AgentLang

open List

namespace Names

variable {name x : String} {names left right : Names}

theorem mem_singleton : x ∈ ({name} : Names) ↔ x = name := List.mem_singleton

theorem mem_insert : x ∈ names.insert name ↔ x = name ∨ x ∈ names := mem_place

theorem mem_union : x ∈ left ∪ right ↔ x ∈ left ∨ x ∈ right := by
  have hfold : ∀ (added : List String) (names : Names),
      x ∈ added.foldl (fun names name => names.insert name) names ↔ x ∈ names ∨ x ∈ added := by
    intro added
    induction added with
    | nil => simp
    | cons first others ih =>
      intro names
      rw [foldl_cons, ih, mem_insert, mem_cons]
      constructor
      · rintro ((h | h) | h) <;> simp [h]
      · rintro (h | h | h) <;> simp [h]
  exact hfold right.list left

end Names

namespace Parse.Reach

variable {misses others : List (Nat × String)} {reach reach' : Reach} {low low' high pos : Nat}

/-- The finding stands for the given failures, each with its position and the name missed there. -/
def Furthest (misses : List (Nat × String)) : Reach → Prop
  | .unseen => misses = []
  | .upTo far names => (∀ miss ∈ misses, miss.1 ≤ far) ∧ (∃ name, (far, name) ∈ misses) ∧
      ∀ name, name ∈ names ↔ (far, name) ∈ misses

theorem furthest_missed (pos : Nat) (name : String) : Furthest [(pos, name)] (.missed pos name) := by
  refine ⟨by simp, ⟨name, by simp⟩, fun other => ?_⟩
  simp [Names.mem_singleton]

theorem join_unseen (reach : Reach) : reach.join .unseen = reach := by
  cases reach <;> rfl

theorem Furthest.join (h : Furthest misses reach) (h' : Furthest others reach') :
    Furthest (misses ++ others) (reach.join reach') := by
  cases reach with
  | unseen =>
    obtain rfl : misses = [] := h
    exact h'
  | upTo far names =>
    cases reach' with
    | unseen =>
      obtain rfl : others = [] := h'
      rw [append_nil]
      exact h
    | upTo far' names' =>
      obtain ⟨hle, ⟨name, hname⟩, hnames⟩ := h
      obtain ⟨hle', ⟨name', hname'⟩, hnames'⟩ := h'
      have hbelow : ∀ {list : List (Nat × String)} {bound at' : Nat} {x : String},
          (∀ miss ∈ list, miss.1 ≤ bound) → bound < at' → (at', x) ∉ list := by
        intro list bound at' x hlist hlt hmem
        exact absurd (hlist _ hmem) (Nat.not_le_of_lt hlt)
      simp only [Reach.join]
      split
      next hlt =>
        refine ⟨fun miss hmem => ?_, ⟨name', mem_append_right _ hname'⟩, fun x => ?_⟩
        · rcases mem_append.mp hmem with hmem | hmem
          · exact Nat.le_trans (hle miss hmem) (Nat.le_of_lt hlt)
          · exact hle' miss hmem
        · rw [hnames', mem_append, or_iff_right (hbelow hle hlt)]
      next hge =>
        split
        next hlt =>
          refine ⟨fun miss hmem => ?_, ⟨name, mem_append_left _ hname⟩, fun x => ?_⟩
          · rcases mem_append.mp hmem with hmem | hmem
            · exact hle miss hmem
            · exact Nat.le_trans (hle' miss hmem) (Nat.le_of_lt hlt)
          · rw [hnames, mem_append, or_iff_left (hbelow hle' hlt)]
        next hge' =>
          obtain rfl : far = far' := by omega
          refine ⟨fun miss hmem => ?_, ⟨name, mem_append_left _ hname⟩, fun x => ?_⟩
          · rcases mem_append.mp hmem with hmem | hmem
            · exact hle miss hmem
            · exact hle' miss hmem
          · rw [Names.mem_union, hnames, hnames', mem_append]

theorem Furthest.append (h : Furthest misses reach) (h' : Furthest others reach) :
    Furthest (misses ++ others) reach := by
  cases reach with
  | unseen =>
    obtain rfl : misses = [] := h
    exact h'
  | upTo far names =>
    obtain ⟨hle, ⟨name, hname⟩, hnames⟩ := h
    refine ⟨fun miss hmem => ?_, ⟨name, mem_append_left _ hname⟩, fun x => ?_⟩
    · rcases mem_append.mp hmem with hmem | hmem
      · exact hle miss hmem
      · exact h'.1 miss hmem
    · rw [mem_append, ← hnames, ← h'.2.2, or_self]

/-! ### Bounds -/

/-- All failures of the finding stand between two positions. -/
def Between (low high : Nat) : Reach → Prop
  | .unseen => True
  | .upTo far names => low ≤ far ∧ far ≤ high ∧ ∃ name, name ∈ names

/-- There are failures, and they stand between two positions. -/
def Arrives (low high : Nat) : Reach → Prop
  | .unseen => False
  | .upTo far names => low ≤ far ∧ far ≤ high ∧ ∃ name, name ∈ names

theorem arrives_missed (h : pos ≤ high) (name : String) : Arrives pos high (.missed pos name) :=
  ⟨Nat.le_refl pos, h, name, Names.mem_singleton.mpr rfl⟩

theorem Arrives.between (h : Arrives low high reach) : Between low high reach := by
  cases reach with
  | unseen => trivial
  | upTo far names => exact h

theorem Between.mono (h : Between low' high reach) (hle : low ≤ low') : Between low high reach := by
  cases reach with
  | unseen => trivial
  | upTo far names => exact ⟨Nat.le_trans hle h.1, h.2⟩

theorem Arrives.mono (h : Arrives low' high reach) (hle : low ≤ low') : Arrives low high reach := by
  cases reach with
  | unseen => exact h
  | upTo far names => exact ⟨Nat.le_trans hle h.1, h.2⟩

theorem Between.join (h : Between low high reach) (h' : Between low high reach') :
    Between low high (reach.join reach') := by
  cases reach with
  | unseen => exact h'
  | upTo far names =>
    cases reach' with
    | unseen => exact h
    | upTo far' names' =>
      obtain ⟨hlow, hhigh, name, hname⟩ := h
      simp only [Reach.join]
      split
      · exact h'
      · split
        · exact ⟨hlow, hhigh, name, hname⟩
        · exact ⟨hlow, hhigh, name, Names.mem_union.mpr (.inl hname)⟩

theorem Arrives.join (h : Arrives low high reach) (h' : Between low' high reach') :
    Arrives low high (reach.join reach') := by
  cases reach with
  | unseen => exact h.elim
  | upTo far names =>
    obtain ⟨hlow, hhigh, name, hname⟩ := h
    cases reach' with
    | unseen => exact ⟨hlow, hhigh, name, hname⟩
    | upTo far' names' =>
      simp only [Reach.join]
      split
      next hlt => exact ⟨by omega, h'.2⟩
      next =>
        split
        · exact ⟨hlow, hhigh, name, hname⟩
        · exact ⟨hlow, hhigh, name, Names.mem_union.mpr (.inl hname)⟩

theorem Between.join_arrives (h : Between low' high reach) (h' : Arrives low high reach') :
    Arrives low high (reach.join reach') := by
  cases reach' with
  | unseen => exact h'.elim
  | upTo far' names' =>
    obtain ⟨hlow, hhigh, name, hname⟩ := h'
    cases reach with
    | unseen => exact ⟨hlow, hhigh, name, hname⟩
    | upTo far names =>
      simp only [Reach.join]
      split
      · exact ⟨hlow, hhigh, name, hname⟩
      · split
        next hlt => exact ⟨by omega, h.2⟩
        next hge hge' => exact ⟨by omega, h.2.1, name, Names.mem_union.mpr (.inr hname)⟩

end Parse.Reach
end AgentLang
