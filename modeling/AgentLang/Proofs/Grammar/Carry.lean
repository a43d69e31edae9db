import AgentLang.Proofs.Grammar.Cut

/-!
# Carrying readings over to another text

A text is compared with another one that begins alike. What is read of the first one inside its
beginning is read of the second one too, except where it ends at places of a kind that is given with
the parser. What follows at these places is then read in neither text.
-/

namespace AgentLang.Grammar

open Verdict

variable {α β : Type} {front back target : List Char} {K L : Nat → Prop} {i n : Nat}

/-- What is read of the text inside its beginning is read of the other one, unless it ends at a place
of the kind `K`. -/
def Carries (front back target : List Char) (K : Nat → Prop) (p : Parser α) (i : Nat) : Prop :=
  ∀ v n, read (front ++ back) p i = .ok v n → n ≤ front.length → read target p i = .ok v n ∨ K n

/-- What is read of the text inside its beginning is always read of the other one. -/
abbrev Keeps (front back target : List Char) (p : Parser α) (i : Nat) : Prop :=
  Carries front back target (fun _ => False) p i

/-- So is what is missed. -/
structure Mirrors (front back target : List Char) (p : Parser α) (i : Nat) : Prop where
  keeps : Keeps front back target p i
  misses : read (front ++ back) p i = .miss → read target p i = .miss

section

variable {p q : Parser α}

theorem Keeps.read (h : Keeps front back target p i) (hok : read (front ++ back) p i = .ok v n)
    (hn : n ≤ front.length) : Grammar.read target p i = .ok v n :=
  (h v n hok hn).resolve_right id

theorem Carries.mono (h : Carries front back target L p i)
    (hK : ∀ n, n ≤ front.length → L n → K n) : Carries front back target K p i :=
  fun v n hok hn => (h v n hok hn).imp_right (hK n hn)

theorem Keeps.carries (h : Keeps front back target p i) : Carries front back target K p i :=
  h.mono fun _ _ => False.elim

theorem Carries.spans (h : Carries front back target K p i) (hspans : Spans (front ++ back) p i n)
    (hn : n ≤ front.length) : Spans target p i n ∨ K n := by
  obtain ⟨v, hok⟩ := hspans
  exact (h v n hok hn).imp_left fun hread => ⟨v, hread⟩

theorem Keeps.spans (h : Keeps front back target p i) (hspans : Spans (front ++ back) p i n)
    (hn : n ≤ front.length) : Spans target p i n :=
  (Carries.spans h hspans hn).resolve_right id

theorem Carries.congr (hsource : read (front ++ back) p i = read (front ++ back) q i)
    (htarget : read target p i = read target q i) (hq : Carries front back target K q i) :
    Carries front back target K p i := by
  intro v n hok hn
  rw [hsource] at hok
  rw [htarget]
  exact hq v n hok hn

/-! ### Sequences -/

theorem Carries.map (h : Carries front back target K p i) (f : α → β) :
    Carries front back target K (.map f p) i := by
  intro v n hok hn
  rw [read_map] at hok ⊢
  obtain ⟨u, hread, rfl⟩ := map_eq_ok.mp hok
  refine (h u n hread hn).imp_left fun hsame => ?_
  rw [hsame]
  rfl

theorem Mirrors.map (h : Mirrors front back target p i) (f : α → β) :
    Mirrors front back target (.map f p) i where
  keeps := h.keeps.map f
  misses hmiss := by
    rw [read_map, map_eq_miss] at hmiss ⊢
    exact h.misses hmiss

theorem Carries.call (h : Carries front back target K (bodyOf r) i) :
    Carries front back target K (Parse.Parser.call (S := language) r) i := by
  intro v n hok hn
  rw [read_call] at hok ⊢
  exact h v n hok hn

theorem Carries.commit (h : Carries front back target K p i) (message : String) :
    Carries front back target K (.commit p message) i := by
  intro v n hok hn
  rw [read_commit] at hok ⊢
  rcases orElse_eq_ok.mp hok with hread | ⟨-, hdead⟩
  · refine (h v n hread hn).imp_left fun hsame => ?_
    rw [hsame]
    rfl
  · cases hdead

variable (hi : i ≤ front.length)
include hi

theorem Carries.seq {p : Parser (α → β)} (hp : Carries front back target L p i)
    (hq : Past front p i (Carries front back target K q))
    (hshort : ∀ m n, m ≤ front.length → L m → Spans (front ++ back) q m n → n ≤ front.length →
      K n) :
    Carries front back target K (.seq p q) i := by
  intro v n hok hn
  rw [read_seq] at hok ⊢
  obtain ⟨f, m, hfirst, hrest⟩ := bind_eq_ok.mp hok
  obtain ⟨u, hsecond, rfl⟩ := map_eq_ok.mp hrest
  have hbounds := read_bounds hfirst (le_append hi)
  have hm : m ≤ front.length := Nat.le_trans (read_bounds hsecond hbounds.2.1).1 hn
  rcases hp f m hfirst hm with hsame | hL
  · refine (hq m hbounds.1 hbounds.2.2 hm u n hsecond hn).imp_left fun hsame' => ?_
    rw [hsame]
    dsimp only [Verdict.bind]
    rw [hsame']
    rfl
  · exact .inr (hshort m n hm hL ⟨u, hsecond⟩ hn)

theorem Carries.skip {p : Parser β} (hp : Carries front back target L p i)
    (hq : Past front p i (Carries front back target K q))
    (hshort : ∀ m n, m ≤ front.length → L m → Spans (front ++ back) q m n → n ≤ front.length →
      K n) :
    Carries front back target K (p *> q) i :=
  Carries.seq hi (hp.map _) hq hshort

theorem Carries.keep {q : Parser β} (hp : Carries front back target L p i)
    (hq : Past front p i (Carries front back target K q))
    (hshort : ∀ m n, m ≤ front.length → L m → Spans (front ++ back) q m n → n ≤ front.length →
      K n) :
    Carries front back target K (p <* q) i :=
  Carries.seq hi (hp.map _) hq hshort

theorem Keeps.seq {p : Parser (α → β)} (hp : Keeps front back target p i)
    (hq : Past front p i (Carries front back target K q)) :
    Carries front back target K (.seq p q) i :=
  Carries.seq hi hp hq fun _ _ _ => False.elim

theorem Keeps.skip {p : Parser β} (hp : Keeps front back target p i)
    (hq : Past front p i (Carries front back target K q)) :
    Carries front back target K (p *> q) i :=
  Keeps.seq hi (hp.map _) hq

theorem Keeps.keep {q : Parser β} (hp : Keeps front back target p i)
    (hq : Past front p i (Carries front back target K q)) :
    Carries front back target K (p <* q) i :=
  Keeps.seq hi (hp.map _) hq

/-- The second part may be the same for reasons that only hold where the whole ends. -/
theorem seq_carried {p : Parser (α → β)} {v : β} (hp : Keeps front back target p i)
    (h : read (front ++ back) (.seq p q) i = .ok v n) (hn : n ≤ front.length)
    (hq : ∀ u m, i ≤ m → (p.nullable (fun _ => false) = false → i < m) → m ≤ front.length →
      read (front ++ back) q m = .ok u n → read target q m = .ok u n) :
    read target (.seq p q) i = .ok v n := by
  rw [read_seq] at h ⊢
  obtain ⟨f, m, hfirst, hrest⟩ := bind_eq_ok.mp h
  obtain ⟨u, hsecond, rfl⟩ := map_eq_ok.mp hrest
  have hbounds := read_bounds hfirst (le_append hi)
  have hm : m ≤ front.length := Nat.le_trans (read_bounds hsecond hbounds.2.1).1 hn
  rw [hp.read hfirst hm]
  dsimp only [Verdict.bind]
  rw [hq u m hbounds.1 hbounds.2.2 hm hsecond]
  rfl

theorem skip_carried {p : Parser β} {v : α} (hp : Keeps front back target p i)
    (h : read (front ++ back) (p *> q) i = .ok v n) (hn : n ≤ front.length)
    (hq : ∀ u m, i ≤ m → (p.nullable (fun _ => false) = false → i < m) → m ≤ front.length →
      read (front ++ back) q m = .ok u n → read target q m = .ok u n) :
    read target (p *> q) i = .ok v n :=
  seq_carried hi (hp.map _) h hn hq

theorem keep_carried {q : Parser β} {v : α} (h : read (front ++ back) (p <* q) i = .ok v n)
    (hn : n ≤ front.length)
    (hboth : ∀ m, i ≤ m → m ≤ front.length → read (front ++ back) p i = .ok v m →
      Spans (front ++ back) q m n → read target p i = .ok v m ∧ Spans target q m n) :
    read target (p <* q) i = .ok v n := by
  rw [read_keep] at h ⊢
  obtain ⟨u, m, hfirst, hrest⟩ := bind_eq_ok.mp h
  obtain ⟨c, hsecond, rfl⟩ := map_eq_ok.mp hrest
  have hbounds := read_bounds hfirst (le_append hi)
  have hm : m ≤ front.length := Nat.le_trans (read_bounds hsecond hbounds.2.1).1 hn
  obtain ⟨hsame, c', hsame'⟩ := hboth m hbounds.1 hm hfirst ⟨c, hsecond⟩
  rw [hsame]
  dsimp only [Verdict.bind]
  rw [hsame']
  rfl

omit hi in
theorem Mirrors.seq_misses {p : Parser (α → β)} (h : Mirrors front back target p i)
    (hi : i ≤ front.length) (hq : q.certain = true)
    (hmiss : read (front ++ back) (.seq p q) i = .miss) : read target (.seq p q) i = .miss := by
  rw [read_seq, bind_eq_miss] at hmiss ⊢
  rcases hmiss with hmiss | ⟨f, n, hok, hmiss⟩
  · exact .inl (h.misses hmiss)
  · exact absurd (map_eq_miss.mp hmiss) (read_certain hq (read_bounds hok (le_append hi)).2.1)

theorem Mirrors.commit {head : Parser β} (h : Mirrors front back target head i)
    (hp : Past front head i (Keeps front back target p)) :
    Mirrors front back target (head *> .commit p message) i where
  keeps := Keeps.skip hi h.keeps fun n hle hlt hn => Carries.commit (hp n hle hlt hn) message
  misses hmiss := by
    rw [read_skip, bind_eq_miss] at hmiss ⊢
    rcases hmiss with hmiss | ⟨v, n, -, hmiss⟩
    · exact .inl (h.misses hmiss)
    · rw [read_commit, orElse_eq_miss] at hmiss
      cases hmiss.2

omit hi

theorem Mirrors.guard (h : Mirrors front back target p i) (hopen : harmless p = true) :
    Keeps front back target (.notFollowedBy p name) i := by
  intro v n hok _
  refine .inl ?_
  rw [read_notFollowedBy] at hok ⊢
  cases hread : read (front ++ back) p i with
  | ok u m => cases hread ▸ hok
  | miss =>
    rw [hread] at hok
    rw [h.misses hread]
    exact hok
  | dead => exact absurd hread (read_ne_dead hopen)

/-! ### Alternatives -/

/-- Where the first alternative is missed in the first text only, the second one must end at a place
of the kind. -/
theorem Carries.alt (hp : Carries front back target K p i) (hq : Carries front back target K q i)
    (hboth : ∀ n, read (front ++ back) p i = .miss → read target p i ≠ .miss →
      Spans (front ++ back) q i n → Spans target q i n → n ≤ front.length → K n) :
    Carries front back target K (.alt p q) i := by
  intro v n hok hn
  rw [read_alt] at hok ⊢
  rcases orElse_eq_ok.mp hok with hfirst | ⟨hmiss, hsecond⟩
  · refine (hp v n hfirst hn).imp_left fun hsame => ?_
    rw [hsame]
    rfl
  · rcases hq v n hsecond hn with hsame | hK
    · by_cases hmiss' : read target p i = .miss
      · exact .inl (orElse_eq_ok.mpr (.inr ⟨hmiss', hsame⟩))
      · exact .inr (hboth n hmiss hmiss' ⟨v, hsecond⟩ ⟨v, hsame⟩ hn)
    · exact .inr hK

/-- The first alternative that fits is the same, if the earlier ones are missed wherever it fits. -/
theorem choice_carried (h : read (front ++ back) (.choice (p :: ps)) i = .ok v n)
    (hp : read (front ++ back) p i = .ok v n → read target p i = .ok v n)
    (hps : read (front ++ back) (.choice ps) i = .ok v n → read target (.choice ps) i = .ok v n)
    (hmiss : read (front ++ back) p i = .miss → Spans (front ++ back) (.choice ps) i n →
      Spans target (.choice ps) i n → read target p i = .miss) :
    read target (.choice (p :: ps)) i = .ok v n := by
  rw [read_choice_cons] at h ⊢
  rcases orElse_eq_ok.mp h with hfirst | ⟨hnone, hothers⟩
  · exact orElse_eq_ok.mpr (.inl (hp hfirst))
  · have hsame := hps hothers
    exact orElse_eq_ok.mpr (.inr ⟨hmiss hnone ⟨v, hothers⟩ ⟨v, hsame⟩, hsame⟩)

theorem choice_last (h : read (front ++ back) (.choice [p]) i = .ok v n)
    (hp : read (front ++ back) p i = .ok v n → read target p i = .ok v n) :
    read target (.choice [p]) i = .ok v n := by
  refine choice_carried h hp (fun hnil => ?_) fun _ hnil => absurd hnil spans_choice_nil
  cases read_choice_nil.symm.trans hnil

theorem Mirrors.choice_carried (hp : Mirrors front back target p i) (hn : n ≤ front.length)
    (h : read (front ++ back) (.choice (p :: ps)) i = .ok v n)
    (hps : read (front ++ back) (.choice ps) i = .ok v n → read target (.choice ps) i = .ok v n) :
    read target (.choice (p :: ps)) i = .ok v n :=
  Grammar.choice_carried h (fun hok => hp.keeps.read hok hn) hps fun hmiss _ _ => hp.misses hmiss

theorem Carries.alt_of_heads (heads : List Char) (hi : i ≤ target.length)
    (hp : Carries front back target K p i) (hq : Carries front back target K q i)
    (hnullable : p.nullable (fun _ => false) = false)
    (hheads : ∀ c, begins (some c) p = true → c ∈ heads)
    (hshut : shut heads q = true) : Carries front back target K (.alt p q) i := by
  refine hp.alt hq fun n _ hne _ hother _ => ?_
  obtain ⟨v, hread⟩ := hother
  cases hread.symm.trans ((ends_of_ne_miss heads hne hi hnullable hheads).eq_miss hi hshut)

theorem Carries.fail : Carries front back target K (.fail : Parser α) i := by
  intro v n hok _
  cases read_fail.symm.trans hok

theorem Carries.single (h : Carries front back target K p i) :
    Carries front back target K (Parse.Parser.choice [p]) i :=
  h.alt Carries.fail fun _ _ _ hfail _ _ => absurd hfail spans_choice_nil

theorem Mirrors.choice (h : ∀ p ∈ ps, Mirrors front back target p i) :
    Mirrors front back target (Parse.Parser.choice ps) i := by
  induction ps with
  | nil => exact ⟨Carries.fail, fun _ => read_choice_nil⟩
  | cons p ps ih =>
    have hp := h p List.mem_cons_self
    have hps := ih fun q hq => h q (List.mem_cons_of_mem p hq)
    refine ⟨Carries.alt hp.keeps hps.keeps fun _ hmiss hne _ _ _ => hne (hp.misses hmiss), ?_⟩
    intro hmiss
    rw [read_choice_cons, orElse_eq_miss] at hmiss ⊢
    exact ⟨hp.misses hmiss.1, hps.misses hmiss.2⟩

theorem Carries.optional (hp : Carries front back target K p i)
    (hnone : read (front ++ back) p i = .miss → read target p i ≠ .miss → K i) :
    Carries front back target K (.optional p) i := by
  intro v n hok hn
  rw [read_optional] at hok ⊢
  rcases orElse_eq_ok.mp hok with hsome | ⟨hmiss, hempty⟩
  · obtain ⟨u, hread, rfl⟩ := map_eq_ok.mp hsome
    refine (hp u n hread hn).imp_left fun hsame => ?_
    rw [hsame]
    rfl
  · rw [map_eq_miss] at hmiss
    obtain ⟨rfl, rfl⟩ := Verdict.ok.inj hempty
    by_cases hmiss' : read target p i = .miss
    · exact .inl (orElse_eq_ok.mpr (.inr ⟨map_eq_miss.mpr hmiss', rfl⟩))
    · exact .inr (hnone hmiss hmiss')

theorem Mirrors.optional (hp : Mirrors front back target p i) :
    Keeps front back target (.optional p) i :=
  Carries.optional hp.keeps fun hmiss hne => hne (hp.misses hmiss)

/-! ### Repetition -/

include hi

theorem Carries.many (hnullable : p.nullable (fun _ => false) = false)
    (hp : ∀ j, i ≤ j → j ≤ front.length → Carries front back target L p j)
    (hshort : ∀ j, j ≤ front.length → L j → read (front ++ back) p j = .miss ∧ K j)
    (hend : ∀ j, i ≤ j → j ≤ front.length → read (front ++ back) p j = .miss →
      read target p j ≠ .miss → K j) :
    Carries front back target K (.many p) i := by
  induction hleft : front.length - i using Nat.strongRecOn generalizing i with
  | ind left ih =>
    intro vs e hok he
    rw [read_many] at hok ⊢
    cases hfirst : read (front ++ back) p i with
    | ok v n =>
      rw [hfirst] at hok
      dsimp only at hok
      have hbounds := read_bounds hfirst (le_append hi)
      have hlt := hbounds.2.2 hnullable
      rw [if_neg (by omega)] at hok
      obtain ⟨us, hrest, rfl⟩ := map_eq_ok.mp hok
      have hn : n ≤ front.length := Nat.le_trans (read_bounds hrest hbounds.2.1).1 he
      rcases hp i (Nat.le_refl i) hi v n hfirst hn with hsame | hL
      · refine (ih _ (by omega) hn (fun j hj => hp j (by omega))
          (fun j hj => hend j (by omega)) rfl us e hrest he).imp_left fun hsame' => ?_
        rw [hsame]
        dsimp only
        rw [if_neg (by omega), hsame']
        rfl
      · -- Nothing can follow where an item is not the same.
        obtain ⟨hmiss, hK⟩ := hshort n hn hL
        rw [read_many, hmiss] at hrest
        cases hrest
        exact .inr hK
    | miss =>
      rw [hfirst] at hok
      cases hok
      by_cases hmiss : read target p i = .miss
      · rw [hmiss]
        exact .inl rfl
      · exact .inr (hend i (Nat.le_refl i) he hfirst hmiss)
    | dead => cases hfirst ▸ hok

theorem Mirrors.many (hnullable : p.nullable (fun _ => false) = false)
    (hp : ∀ j, i ≤ j → j ≤ front.length → Mirrors front back target p j) :
    Keeps front back target (.many p) i :=
  Carries.many hi hnullable (fun j hij hj => (hp j hij hj).keeps) (fun _ _ => False.elim)
    fun j hij hj hmiss hne => hne ((hp j hij hj).misses hmiss)

theorem Carries.many1 (hi' : i ≤ target.length) (hnullable : p.nullable (fun _ => false) = false)
    (hp : ∀ j, i ≤ j → j ≤ front.length → Carries front back target L p j)
    (hshort : ∀ j, j ≤ front.length → L j → read (front ++ back) p j = .miss ∧ K j)
    (hend : ∀ j, i ≤ j → j ≤ front.length → read (front ++ back) p j = .miss →
      read target p j ≠ .miss → K j) :
    Carries front back target K (.many1 p) i := by
  refine Carries.congr (read_many1 (le_append hi) hnullable) (read_many1 hi' hnullable) ?_
  refine Carries.seq hi ((hp i (Nat.le_refl i) hi).map _) (fun n hin _ hn => ?_) ?_
  · exact Carries.many hn hnullable (fun j hj => hp j (by omega)) hshort
      fun j hj => hend j (by omega)
  · intro m n hm hL hothers hn
    obtain ⟨hmiss, hK⟩ := hshort m hm hL
    rw [hothers.many_of_miss hmiss]
    exact hK

theorem Carries.sepBy {separator : Parser β} (hi' : i ≤ target.length)
    (hp : Carries front back target L p i)
    (hothers : ∀ n, i ≤ n → n ≤ front.length →
      Carries front back target K (.many (separator *> p)) n)
    (hshort : ∀ m n, m ≤ front.length → L m →
      Spans (front ++ back) (.many (separator *> p)) m n → n ≤ front.length → K n)
    (hnone : read (front ++ back) p i = .miss → read target p i ≠ .miss → K i) :
    Carries front back target K (.sepBy p separator) i := by
  refine Carries.congr (read_list (le_append hi)) (read_list hi') (Carries.alt ?_ ?_ ?_)
  · exact Carries.seq hi (hp.map _) (fun n hin _ hn => hothers n hin hn) hshort
  · intro v n hok _
    rw [read_pure] at hok ⊢
    exact .inl hok
  · rintro n hmiss hne ⟨v, hok⟩ - -
    rw [read_pure] at hok
    cases hok
    exact hnone ((first_many_eq_miss (le_append hi)).mp hmiss)
      (mt (first_many_eq_miss hi').mpr hne)

theorem Mirrors.sepBy {separator : Parser β} (hi' : i ≤ target.length)
    (hp : Mirrors front back target p i)
    (hothers : ∀ n, i ≤ n → n ≤ front.length → Keeps front back target (.many (separator *> p)) n) :
    Keeps front back target (.sepBy p separator) i :=
  Carries.sepBy hi hi' hp.keeps hothers (fun _ _ _ => False.elim)
    fun hmiss hne => hne (hp.misses hmiss)

end
end AgentLang.Grammar
