import AgentLang.Proofs.Grammar.Overlap

/-!
# What patterns take before a rest

Whether a pattern takes a word depends on what follows it. A pattern that repeats nothing looks at a
bounded number of characters, and so do the items of a repetition: two rests that begin alike are
not told apart.
-/

namespace AgentLang

open List

/-- The text is over, or it goes on with one of the given characters. -/
def Stops (heads rest : List Char) : Prop :=
  ∀ c ∈ rest.head?, c ∈ heads

theorem Stops.eq_false (h : Stops heads rest) {f : Option Char → Bool} (hnone : f none = false)
    (hheads : (heads.all fun c => !f (some c)) = true) : f rest.head? = false := by
  cases hhead : rest.head? with
  | none => exact hnone
  | some c =>
    have hc := all_eq_true.mp hheads c (h c hhead)
    exact Bool.not_eq_true' _ ▸ hc

namespace Parse.Pattern

variable {shape first second : Pattern} {accepts : Char → Bool} {w w' rest : List Char}

/-- The pattern takes the word when the rest follows. -/
def Takes (shape : Pattern) (w rest : List Char) : Prop :=
  shape.match? (w ++ rest) = some w.length

theorem match?_eq_none (h : shape.begins rest.head? = false) (hn : shape.nullable = false) :
    shape.match? rest = none := by
  cases hmatch : shape.match? rest with
  | none => rfl
  | some k =>
    obtain rfl := match?_of_not_begins h hmatch
    exact absurd (match?_pos hn hmatch) (Nat.lt_irrefl 0)

theorem Takes.append (h₁ : first.Takes w (w' ++ rest)) (h₂ : second.Takes w' rest) :
    (first ++ second).Takes (w ++ w') rest := by
  unfold Takes at h₁ h₂ ⊢
  change Option.bind (first.match? _) _ = _
  rw [append_assoc, h₁, Option.bind_some, drop_left, h₂, length_append]
  rfl

theorem Takes.lit (literal : String) : (lit literal).Takes literal.toList rest :=
  if_pos (List.isPrefixOf_iff_prefix.mpr (prefix_append _ rest))

theorem Takes.opt (h : shape.Takes w rest) : shape.opt.Takes w rest := by
  unfold Takes at h ⊢
  change (alt shape (.exactly [])).match? (w ++ rest) = _
  rw [match?, h]

theorem Takes.opt_nil (h : shape.match? rest = none) : shape.opt.Takes [] rest := by
  change (alt shape (.exactly [])).match? rest = _
  rw [match?, h]
  rfl

/-- A run of characters of a class goes on to the first character outside. -/
theorem Takes.run (hw : ∀ c ∈ w, accepts c = true) (hrest : rest.head?.any accepts = false) :
    (star (.one accepts)).Takes w rest := by
  have hstop : rest.takeWhile accepts = [] := by
    cases rest with
    | nil => rfl
    | cons c rest => exact takeWhile_cons_of_neg (by simpa using hrest)
  rw [Takes, Grammar.match?_star_one, takeWhile_append_of_pos hw, hstop, append_nil]

theorem Takes.run_plus (hne : w ≠ []) (hw : ∀ c ∈ w, accepts c = true)
    (hrest : rest.head?.any accepts = false) : (plus (.one accepts)).Takes w rest := by
  obtain ⟨c, w, rfl⟩ := exists_cons_of_ne_nil hne
  have hc : (one accepts).Takes [c] (w ++ rest) := if_pos (hw c mem_cons_self)
  exact hc.append (.run (fun d hd => hw d (mem_cons_of_mem c hd)) hrest)

theorem accepts_of_star (h : (star (.one accepts)).Accepts w) : ∀ c ∈ w, accepts c = true := by
  obtain ⟨parts, hparts, rfl⟩ := h
  intro c hc
  obtain ⟨part, hpart, hc⟩ := mem_flatten.mp hc
  obtain ⟨d, hd, rfl⟩ := hparts part hpart
  rw [List.mem_singleton.mp hc]
  exact hd

theorem accepts_of_takes (h : shape.Takes w rest) : shape.Accepts w := by
  have haccepts := (match?_accepts h).2
  rwa [take_left] at haccepts

theorem Takes.of_append (h : (first ++ second).Takes w rest) :
    ∃ u v, w = u ++ v ∧ first.Takes u (v ++ rest) ∧ second.Takes v rest := by
  obtain ⟨k, hfirst, hrest⟩ := Option.bind_eq_some_iff.mp h
  obtain ⟨j, hsecond, hlength⟩ := Option.map_eq_some_iff.mp hrest
  have hk : k ≤ w.length := hlength ▸ Nat.le_add_right k j
  have htake : (w.take k).length = k := length_take_of_le hk
  have hdrop : (w.drop k).length = j := by
    rw [length_drop]
    omega
  refine ⟨w.take k, w.drop k, (take_append_drop k w).symm, ?_, ?_⟩
  · rw [Takes, htake, ← append_assoc, take_append_drop]
    exact hfirst
  · rw [drop_append_of_le_length hk] at hsecond
    rw [Takes, hdrop]
    exact hsecond

/-! ### How far patterns look -/

/-- How many characters a pattern looks at, if it repeats nothing. -/
def sight? : Pattern → Option Nat
  | .one _ => some 1
  | .exactly literal => some literal.length
  | .seq first second => first.sight?.bind fun n => second.sight?.map (n + ·)
  | .alt first second => first.sight?.bind fun n => second.sight?.map (max n ·)
  | .star _ => none
  | .unless literal => some literal.length
  | .through _ => none

theorem match?_le_sight (h : shape.sight? = some n) (hmatch : shape.match? text = some k) :
    k ≤ n := by
  induction shape generalizing n k text with
  | one accepts =>
    cases h
    cases text with
    | nil => cases hmatch
    | cons c text =>
      rw [match?] at hmatch
      split at hmatch <;> cases hmatch
      exact Nat.le_refl 1
  | exactly literal =>
    cases h
    rw [match?] at hmatch
    split at hmatch <;> cases hmatch
    exact Nat.le_refl _
  | seq first second ih₁ ih₂ =>
    obtain ⟨n₁, h₁, hn⟩ := Option.bind_eq_some_iff.mp h
    obtain ⟨n₂, h₂, rfl⟩ := Option.map_eq_some_iff.mp hn
    obtain ⟨k₁, hk₁, hk⟩ := Option.bind_eq_some_iff.mp hmatch
    obtain ⟨k₂, hk₂, rfl⟩ := Option.map_eq_some_iff.mp hk
    exact Nat.add_le_add (ih₁ h₁ hk₁) (ih₂ h₂ hk₂)
  | alt first second ih₁ ih₂ =>
    obtain ⟨n₁, h₁, hn⟩ := Option.bind_eq_some_iff.mp h
    obtain ⟨n₂, h₂, rfl⟩ := Option.map_eq_some_iff.mp hn
    rw [match?] at hmatch
    split at hmatch
    next taken htaken =>
      cases hmatch
      exact Nat.le_trans (ih₁ h₁ htaken) (Nat.le_max_left n₁ n₂)
    next => exact Nat.le_trans (ih₂ h₂ hmatch) (Nat.le_max_right n₁ n₂)
  | «unless» literal =>
    rw [match?] at hmatch
    split at hmatch <;> cases hmatch
    exact Nat.zero_le n
  | star | through => cases h

theorem take_eq_of_le {text text' : List Char} {m n : Nat} (h : text.take n = text'.take n)
    (hm : m ≤ n) : text.take m = text'.take m := by
  rw [← Nat.min_eq_left hm, ← take_take, ← take_take, h]

theorem isPrefixOf_eq_of_take {literal text text' : List Char}
    (h : text.take literal.length = text'.take literal.length) :
    literal.isPrefixOf text = literal.isPrefixOf text' := by
  rw [Bool.eq_iff_iff, isPrefixOf_iff_prefix, isPrefixOf_iff_prefix,
    prefix_iff_eq_take, prefix_iff_eq_take, h]

theorem match?_eq_of_take {n : Nat} {text text' : List Char} (h : shape.sight? = some n)
    (htake : text.take n = text'.take n) : shape.match? text = shape.match? text' := by
  induction shape generalizing n text text' with
  | one accepts =>
    cases h
    cases text <;> cases text' <;> simp_all [match?]
  | exactly literal =>
    cases h
    rw [match?, match?, isPrefixOf_eq_of_take htake]
  | seq first second ih₁ ih₂ =>
    obtain ⟨n₁, h₁, hn⟩ := Option.bind_eq_some_iff.mp h
    obtain ⟨n₂, h₂, rfl⟩ := Option.map_eq_some_iff.mp hn
    rw [match?, match?, ih₁ h₁ (take_eq_of_le htake (Nat.le_add_right n₁ n₂))]
    cases hk : first.match? text' with
    | none => rfl
    | some k =>
      have hle := match?_le_sight h₁ hk
      have hshort := take_eq_of_le htake (Nat.add_le_add_right hle n₂)
      have hdrop : (text.drop k).take n₂ = (text'.drop k).take n₂ := by
        have heq := congrArg (List.drop k) hshort
        rwa [drop_take, drop_take, Nat.add_sub_cancel_left] at heq
      rw [Option.bind_some, Option.bind_some, ih₂ h₂ hdrop]
  | alt first second ih₁ ih₂ =>
    obtain ⟨n₁, h₁, hn⟩ := Option.bind_eq_some_iff.mp h
    obtain ⟨n₂, h₂, rfl⟩ := Option.map_eq_some_iff.mp hn
    rw [match?, match?, ih₁ h₁ (take_eq_of_le htake (Nat.le_max_left n₁ n₂)),
      ih₂ h₂ (take_eq_of_le htake (Nat.le_max_right n₁ n₂))]
  | «unless» literal =>
    cases h
    rw [match?, match?, isPrefixOf_eq_of_take htake]
  | star | through => cases h

/-! ### Repetition -/

section

variable {item : Pattern} {u v c x y : List Char} {n : Nat}

theorem Takes.star_cases (h : (star item).Takes w rest) :
    (w = [] ∧ ∀ k, item.match? rest = some k → k = 0) ∨
      ∃ u v, u ≠ [] ∧ w = u ++ v ∧ item.Takes u (v ++ rest) ∧ (star item).Takes v rest := by
  have hlength := Option.some.inj h
  rw [Grammar.repeated_eq _ _ fun k hk => (match?_accepts hk).1] at hlength
  split at hlength
  next k hk =>
    have hle : k + 1 ≤ w.length := hlength ▸ Nat.le_add_right _ _
    have htake : (w.take (k + 1)).length = k + 1 := length_take_of_le hle
    rw [drop_append_of_le_length hle] at hlength
    refine .inr ⟨w.take (k + 1), w.drop (k + 1), ?_, (take_append_drop _ w).symm, ?_, ?_⟩
    · apply length_pos_iff.mp
      rw [htake]
      exact Nat.succ_pos k
    · rw [Takes, htake, ← append_assoc, take_append_drop]
      exact hk
    · apply congrArg some
      rw [length_drop]
      exact Nat.eq_sub_of_add_eq' hlength
  next hstop =>
    obtain rfl := length_eq_zero_iff.mp hlength.symm
    refine .inl ⟨rfl, fun k hk => ?_⟩
    cases k with
    | zero => rfl
    | succ k => exact absurd hk (hstop k)

theorem Takes.star_nil (h : item.match? rest = none) : (star item).Takes [] rest := by
  refine congrArg some ?_
  rw [nil_append, Grammar.repeated_eq _ _ fun k hk => (match?_accepts hk).1, h]
  rfl

theorem Takes.star_cons (hu : u ≠ []) (h : item.Takes u (v ++ rest))
    (hothers : (star item).Takes v rest) : (star item).Takes (u ++ v) rest := by
  obtain ⟨k, hk⟩ := Nat.exists_eq_succ_of_ne_zero (length_pos_iff.mpr hu).ne'
  have hfirst : item.match? (u ++ (v ++ rest)) = some (k + 1) := h.trans (congrArg some hk)
  refine congrArg some ?_
  rw [append_assoc, Grammar.repeated_eq _ _ fun k hk => (match?_accepts hk).1, hfirst]
  dsimp only
  rw [← Nat.succ_eq_add_one, ← hk, drop_left, length_append]
  exact congrArg (u.length + ·) (Option.some.inj hothers)

/-- A repetition goes on until its item is missing. -/
theorem Takes.star_stops (hmoves : item.nullable = false) (h : (star item).Takes w rest) :
    item.match? rest = none := by
  induction hlength : w.length using Nat.strongRecOn generalizing w with
  | ind length ih =>
    rcases h.star_cases with ⟨-, hstop⟩ | ⟨u, v, hu, rfl, -, hothers⟩
    · cases hmatch : item.match? rest with
      | none => rfl
      | some k => exact absurd (hstop k hmatch) (match?_pos hmoves hmatch).ne'
    · have hpos := length_pos_iff.mpr hu
      rw [length_append] at hlength
      exact ih v.length (by omega) hothers rfl

/-- An item that looks no further than the common beginning of two rests. -/
theorem Takes.congr (hsight : item.sight? = some n) (hn : n ≤ c.length + 1) (hu : u ≠ [])
    (h : item.Takes u (v ++ (c ++ x))) : item.Takes u (v ++ (c ++ y)) := by
  have hpos := length_pos_iff.mpr hu
  have hle : n ≤ (u ++ v ++ c).length := by
    simp only [length_append]
    omega
  have hcommon : ∀ z, (u ++ (v ++ (c ++ z))).take n = (u ++ v ++ c).take n := by
    intro z
    rw [← append_assoc, ← append_assoc, take_append_of_le_length hle]
  rw [Takes, match?_eq_of_take hsight ((hcommon y).trans (hcommon x).symm)]
  exact h

theorem Takes.star_congr (hsight : item.sight? = some n) (hn : n ≤ c.length + 1)
    (hend : item.match? (c ++ y) = none) (h : (star item).Takes w (c ++ x)) :
    (star item).Takes w (c ++ y) := by
  induction hlength : w.length using Nat.strongRecOn generalizing w with
  | ind length ih =>
    rcases h.star_cases with ⟨rfl, -⟩ | ⟨u, v, hu, rfl, hitem, hothers⟩
    · exact .star_nil hend
    · have hpos := length_pos_iff.mpr hu
      rw [length_append] at hlength
      exact .star_cons hu (hitem.congr hsight hn hu) (ih v.length (by omega) hothers rfl)

theorem Takes.plus_bounds (hmoves : item.nullable = false) (h : (plus item).Takes w rest) :
    w ≠ [] ∧ item.match? (w ++ rest) ≠ none ∧ item.match? rest = none := by
  obtain ⟨u, v, rfl, hitem, hothers⟩ := h.of_append
  have hu := match?_pos hmoves hitem
  refine ⟨?_, ?_, hothers.star_stops hmoves⟩
  · exact append_ne_nil_of_left_ne_nil (length_pos_iff.mp hu) v
  · rw [append_assoc, hitem]
    exact nofun

theorem Takes.plus_congr (hmoves : item.nullable = false) (hsight : item.sight? = some n)
    (hn : n ≤ c.length + 1) (hend : item.match? (c ++ y) =
      none) (h : (plus item).Takes w (c ++ x)) :
    (plus item).Takes w (c ++ y) := by
  obtain ⟨u, v, rfl, hitem, hothers⟩ := h.of_append
  have hu := length_pos_iff.mp (match?_pos hmoves hitem)
  exact (hitem.congr hsight hn hu).append (hothers.star_congr hsight hn hend)

end

end Parse.Pattern

end AgentLang
