import AgentLang.Parse.Pattern

/-!
# What patterns match

A match stays inside the text, and what it takes is one of the words that the pattern describes. A
pattern that describes no empty word takes at least one character. Greed and the order of the
alternatives decide which word is taken, but not that it is one.
-/

namespace AgentLang.Parse.Pattern

open List

/-- The words that a pattern describes. -/
def Accepts : Pattern → List Char → Prop
  | .one accepts, word => ∃ c, accepts c = true ∧ word = [c]
  | .exactly literal, word => word = literal
  | .seq first second, word => ∃ u v, Accepts first u ∧ Accepts second v ∧ word = u ++ v
  | .alt first second, word => Accepts first word ∨ Accepts second word
  | .star item, word => ∃ parts : List (List Char), (∀ part ∈ parts, Accepts item part) ∧
      word = parts.flatten
  | .unless _, word => word = []
  | .through literal, word => ∃ before, word = before ++ literal

/-- Whether the empty word may be among those that a pattern describes. -/
def nullable : Pattern → Bool
  | .one _ => false
  | .exactly literal => literal.isEmpty
  | .seq first second => first.nullable && second.nullable
  | .alt first second => first.nullable || second.nullable
  | .star _ => true
  | .unless _ => true
  | .through literal => literal.isEmpty

theorem not_accepts_nil {shape : Pattern} (h : shape.nullable = false) : ¬shape.Accepts [] := by
  induction shape with
  | one accepts => rintro ⟨c, -, hc⟩; simp at hc
  | exactly literal =>
    intro ha
    simp only [Accepts] at ha
    simp [nullable, ← ha] at h
  | seq first second ih₁ ih₂ =>
    rintro ⟨u, v, hu, hv, huv⟩
    obtain ⟨rfl, rfl⟩ := append_eq_nil_iff.mp huv.symm
    simp only [nullable, Bool.and_eq_false_iff] at h
    exact h.elim (fun h => ih₁ h hu) (fun h => ih₂ h hv)
  | alt first second ih₁ ih₂ =>
    simp only [nullable, Bool.or_eq_false_iff] at h
    exact fun ha => ha.elim (ih₁ h.1) (ih₂ h.2)
  | star item => simp [nullable] at h
  | «unless» literal => simp [nullable] at h
  | through literal =>
    rintro ⟨before, hb⟩
    obtain ⟨-, rfl⟩ := append_eq_nil_iff.mp hb.symm
    simp [nullable] at h

/-! ### Repetition -/

theorem repeated_ahead (step : List Char → Option Nat) (text : List Char) (ahead : Nat)
    (h : ahead ≤ text.length) :
    repeated step text ahead = ahead + repeated step (text.drop ahead) 0 := by
  induction text generalizing ahead with
  | nil =>
    have : ahead = 0 := by simpa using h
    simp [this, repeated]
  | cons c rest ih =>
    cases ahead with
    | zero => simp
    | succ ahead =>
      simp only [length_cons, Nat.add_le_add_iff_right] at h
      rw [repeated, ih ahead h, drop_succ_cons]
      omega

theorem repeated_parts {step : List Char → Option Nat} {P : List Char → Prop}
    (hstep : ∀ text k, step text = some k → k ≤ text.length ∧ P (text.take k)) (text : List Char) :
    repeated step text 0 ≤ text.length ∧
      ∃ parts : List (List Char), (∀ part ∈ parts, P part) ∧
        text.take (repeated step text 0) = parts.flatten := by
  induction h : text.length using Nat.strongRecOn generalizing text with
  | ind n ih =>
    subst h
    cases text with
    | nil => exact ⟨Nat.le_refl _, [], by simp, by simp⟩
    | cons c rest =>
      rw [repeated]
      split
      next more heq =>
        obtain ⟨hle, hp⟩ := hstep _ _ heq
        have hmore : more ≤ rest.length := by simpa using hle
        have hlt : (rest.drop more).length < (c :: rest).length := by
          simp only [length_drop, length_cons]
          omega
        obtain ⟨hbound, parts, hparts, htake⟩ := ih _ hlt (rest.drop more) rfl
        have hahead := repeated_ahead step rest more hmore
        refine ⟨?_, (c :: rest).take (more + 1) :: parts, ?_, ?_⟩
        · simp only [length_drop] at hbound
          simp only [length_cons]
          omega
        · simpa using ⟨by simpa using hp, hparts⟩
        · rw [hahead, flatten_cons, ← htake, take_succ_cons, take_succ_cons,
            take_add, cons_append]
      next => exact ⟨Nat.zero_le _, [], by simp, by simp⟩

theorem upToEndOf?_spec (h : upToEndOf? literal text = some k) :
    k ≤ text.length ∧ ∃ before, text.take k = before ++ literal := by
  induction text generalizing k with
  | nil =>
    simp only [upToEndOf?] at h
    split at h
    next hl =>
      simp only [Option.some.injEq] at h
      subst h
      exact ⟨Nat.le_refl _, [], by simpa using (List.isEmpty_iff.mp hl).symm⟩
    next => simp at h
  | cons c rest ih =>
    simp only [upToEndOf?] at h
    split at h
    next hp =>
      simp only [Option.some.injEq] at h
      subst h
      obtain ⟨tail, htail⟩ := isPrefixOf_iff_prefix.mp hp
      refine ⟨by simp [← htail], [], by simp [← htail]⟩
    next =>
      obtain ⟨j, hj, rfl⟩ := Option.map_eq_some_iff.mp h
      obtain ⟨hle, before, hb⟩ := ih hj
      exact ⟨by simpa using hle, c :: before, by simp [hb]⟩

/-! ### Matching -/

/-- A match lies inside the text, and the pattern describes what it takes. -/
theorem match?_accepts {shape : Pattern} {text : List Char} {k : Nat}
    (h : shape.match? text = some k) : k ≤ text.length ∧ shape.Accepts (text.take k) := by
  induction shape generalizing text k with
  | one accepts =>
    cases text with
    | nil => simp [match?] at h
    | cons c rest =>
      simp only [match?] at h
      split at h
      next hc =>
        simp only [Option.some.injEq] at h
        subst h
        exact ⟨by simp, c, hc, by simp⟩
      next => simp at h
  | exactly literal =>
    simp only [match?] at h
    split at h
    next hp =>
      simp only [Option.some.injEq] at h
      subst h
      obtain ⟨tail, htail⟩ := isPrefixOf_iff_prefix.mp hp
      exact ⟨by simp [← htail], by simp [Accepts, ← htail]⟩
    next => simp at h
  | seq first second ih₁ ih₂ =>
    simp only [match?, Option.bind_eq_some_iff] at h
    obtain ⟨i, hi, hmap⟩ := h
    obtain ⟨j, hj, rfl⟩ := Option.map_eq_some_iff.mp hmap
    obtain ⟨hle₁, ha₁⟩ := ih₁ hi
    obtain ⟨hle₂, ha₂⟩ := ih₂ hj
    rw [length_drop] at hle₂
    exact ⟨by omega, _, _, ha₁, ha₂, take_add⟩
  | alt first second ih₁ ih₂ =>
    simp only [match?] at h
    split at h
    next taken heq =>
      simp only [Option.some.injEq] at h
      subst h
      exact ⟨(ih₁ heq).1, .inl (ih₁ heq).2⟩
    next => exact ⟨(ih₂ h).1, .inr (ih₂ h).2⟩
  | star item ih =>
    simp only [match?, Option.some.injEq] at h
    subst h
    obtain ⟨hle, parts, hparts, htake⟩ := repeated_parts (fun _ _ h => ih h) text
    exact ⟨hle, parts, hparts, htake⟩
  | «unless» literal =>
    simp only [match?] at h
    split at h
    next => simp at h
    next =>
      simp only [Option.some.injEq] at h
      subst h
      exact ⟨Nat.zero_le _, by simp [Accepts]⟩
  | through literal => exact upToEndOf?_spec h

theorem match?_pos {shape : Pattern} {text : List Char} {k : Nat}
    (hn : shape.nullable = false) (h : shape.match? text = some k) : 0 < k := by
  rcases Nat.eq_zero_or_pos k with rfl | hk
  · exact absurd (by simpa using (match?_accepts h).2) (not_accepts_nil hn)
  · exact hk

end AgentLang.Parse.Pattern
