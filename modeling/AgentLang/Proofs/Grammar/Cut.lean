import AgentLang.Proofs.Grammar.Opening

/-!
# Cutting a text

A text is compared with a beginning of it. A parser that stays inside the beginning says the same
about both. Where it goes beyond, it misses in the beginning or ends there early, at one of the
places that are given with the parser. What follows at these places decides whether a larger parser
can tell the texts apart.
-/

namespace AgentLang.Parse

/-- Whether a pattern matches at any place. -/
def Pattern.certain : Pattern → Bool
  | .exactly literal => literal.isEmpty
  | .seq first second => first.certain && second.certain
  | .alt first second => first.certain || second.certain
  | .star _ => true
  | _ => false

theorem Pattern.match?_of_certain {shape : Pattern} (h : shape.certain = true) (text : List Char) :
    ∃ k, shape.match? text = some k := by
  induction shape generalizing text with
  | exactly literal =>
    obtain rfl := List.isEmpty_iff.mp h
    exact ⟨0, rfl⟩
  | seq first second ih₁ ih₂ =>
    obtain ⟨h₁, h₂⟩ := Bool.and_eq_true_iff.mp h
    obtain ⟨k₁, hk₁⟩ := ih₁ h₁ text
    obtain ⟨k₂, hk₂⟩ := ih₂ h₂ (text.drop k₁)
    exact ⟨k₁ + k₂, by simp [match?, hk₁, hk₂]⟩
  | alt first second ih₁ ih₂ =>
    simp only [match?]
    cases hk : first.match? text with
    | some k => exact ⟨k, rfl⟩
    | none =>
      rcases Bool.or_eq_true_iff.mp h with h₁ | h₂
      · obtain ⟨k, hk'⟩ := ih₁ h₁ text
        cases hk.symm.trans hk'
      · exact ih₂ h₂ text
  | star item => exact ⟨_, rfl⟩
  | _ => cases h

/-- Whether a parser never misses. -/
def Parser.certain {S : Signature} : {α : Type} → Parser S α → Bool
  | _, .token shape _ => shape.certain
  | _, .map _ p => p.certain
  | _, .seq p q => p.certain && q.certain
  | _, .optional _ => true
  | _, .many _ => true
  | _, .sepBy _ _ => true
  | _, _ => false

end AgentLang.Parse

namespace AgentLang.Grammar

open Verdict

variable {α β : Type} {front back : List Char} {K L : Nat → Prop} {last i n : Nat}

/-! ### Verdicts about a text and about its beginning -/

/-- How a verdict about a text and one about its first `last` characters go together, where the
places at which the second one may end early are of the kind `K`. -/
inductive Cut (last : Nat) (K : Nat → Prop) : Verdict α → Verdict α → Prop where
  | miss : Cut last K .miss .miss
  | same {v : α} {n : Nat} (hle : n ≤ last) : Cut last K (.ok v n) (.ok v n)
  | lost {v : α} {n : Nat} (hlt : last < n) : Cut last K (.ok v n) .miss
  | short {v v' : α} {n n' : Nat} (hlt : last < n) (hle : n' ≤ last) (hK : K n') :
      Cut last K (.ok v n) (.ok v' n')
  | dead {w : Verdict α} : Cut last K .dead w

namespace Cut

variable {v w : Verdict α}

theorem mono (h : Cut last L v w) (hK : ∀ n, n ≤ last → L n → K n) : Cut last K v w := by
  cases h with
  | miss => exact .miss
  | same hle => exact .same hle
  | lost hlt => exact .lost hlt
  | short hlt hle hn => exact .short hlt hle (hK _ hle hn)
  | dead => exact .dead

theorem map (h : Cut last K v w) (f : α → β) : Cut last K (v.map f) (w.map f) := by
  cases h with
  | miss => exact .miss
  | same hle => exact .same hle
  | lost hlt => exact .lost hlt
  | short hlt hle hn => exact .short hlt hle hn
  | dead => exact .dead

/-- Where the verdict about the whole text does not end inside its beginning, a miss goes with it. -/
theorem of_beyond (h : ∀ value n, v = .ok value n → last < n) : Cut last K v .miss := by
  cases v with
  | ok value n => exact .lost (h value n rfl)
  | miss => exact .miss
  | dead => exact .dead

theorem of_iff {whole begin : Prop} [Decidable whole] [Decidable begin] {value : α}
    (hinside : n ≤ last → (whole ↔ begin)) (hbeyond : last < n → ¬begin) :
    Cut last K (if whole then .ok value n else .miss) (if begin then .ok value n else .miss) := by
  rcases Nat.lt_or_ge last n with hlt | hle
  · rw [if_neg (hbeyond hlt)]
    refine of_beyond fun value' n' hok => ?_
    split at hok
    · cases hok
      exact hlt
    · cases hok
  · by_cases hwhole : whole
    · rw [if_pos hwhole, if_pos ((hinside hle).mp hwhole)]
      exact .same hle
    · rw [if_neg hwhole, if_neg fun h => hwhole ((hinside hle).mpr h)]
      exact .miss

theorem of_beyond_ok (h : ∀ value n, v = .ok value n → last < n) (hv : v ≠ .miss) (value : α)
    (hn : n ≤ last) (hK : K n) : Cut last K v (.ok value n) := by
  cases v with
  | ok value' n' => exact .short (h value' n' rfl) hn hK
  | miss => exact absurd rfl hv
  | dead => exact .dead

theorem bind {f g : α → Nat → Verdict β} (h : Cut last L v w)
    (hsame : ∀ value n, v = .ok value n → n ≤ last → Cut last K (f value n) (g value n))
    (hbeyond : ∀ value n, v = .ok value n → last < n →
      ∀ value' n', f value n = .ok value' n' → last < n')
    (hshort : ∀ value n, n ≤ last → L n → g value n = .miss ∨
      (∀ value n, v = .ok value n → f value n ≠ .miss) ∧
        ∃ value' n', g value n = .ok value' n' ∧ n' ≤ last ∧ K n') :
    Cut last K (v.bind f) (w.bind g) := by
  cases h with
  | miss => exact .miss
  | same hle => exact hsame _ _ rfl hle
  | lost hlt => exact of_beyond (hbeyond _ _ rfl hlt)
  | @short value value' n n' hlt hle hn =>
    rcases hshort value' n' hle hn with hmiss | ⟨hnever, value'', n'', hok, hle', hn'⟩
    · dsimp only [Verdict.bind]
      rw [hmiss]
      exact of_beyond (hbeyond _ _ rfl hlt)
    · dsimp only [Verdict.bind]
      rw [hok]
      exact of_beyond_ok (hbeyond _ _ rfl hlt) (hnever value n rfl) value'' hle' hn'
  | dead => exact .dead

theorem orElse (h : Cut last K v w) (h' : Cut last K v' w') (hopen : v' ≠ .dead)
    (hboth : ∀ value n value' n', v = .ok value n → last < n → w = .miss → v' = .ok value' n' →
      n' ≤ last → K n') :
    Cut last K (v.orElse v') (w.orElse w') := by
  cases h with
  | miss => exact h'
  | same hle => exact .same hle
  | lost hlt =>
    cases h' with
    | miss => exact .lost hlt
    | same hle => exact .short hlt hle (hboth _ _ _ _ rfl hlt rfl rfl hle)
    | lost _ => exact .lost hlt
    | short _ hle hn => exact .short hlt hle hn
    | dead => exact absurd rfl hopen
  | short hlt hle hn => exact .short hlt hle hn
  | dead => exact .dead

end Cut

/-- The property holds at all places of the beginning where the parser may end. -/
abbrev Past (front : List Char) (p : Parser α) (i : Nat) (P : Nat → Prop) : Prop :=
  ∀ n, i ≤ n → (p.nullable (fun _ => false) = false → i < n) → n ≤ front.length → P n

/-- What a parser says about a text and about its beginning from a place of the beginning on. -/
def Cuts (front back : List Char) (K : Nat → Prop) (p : Parser α) (i : Nat) : Prop :=
  Cut front.length K (read (front ++ back) p i) (read front p i)

/-- The parser never ends early. -/
abbrev Firm (front back : List Char) (p : Parser α) (i : Nat) : Prop :=
  Cuts front back (fun _ => False) p i

section

variable {p q : Parser α}

theorem le_append (hi : i ≤ front.length) : i ≤ (front ++ back).length := by
  rw [List.length_append]
  omega

theorem Cuts.mono (h : Cuts front back L p i) (hK : ∀ n, n ≤ front.length → L n → K n) :
    Cuts front back K p i :=
  Cut.mono h hK

theorem Firm.cuts (h : Firm front back p i) : Cuts front back K p i :=
  h.mono fun _ _ => False.elim

theorem Cuts.eq_miss (h : Cuts front back K p i) (hmiss : read (front ++ back) p i = .miss) :
    read front p i = .miss := by
  unfold Cuts at h
  rw [hmiss] at h
  generalize read front p i = w at h ⊢
  cases h
  rfl

theorem Cuts.eq_ok (h : Cuts front back K p i) (hok : read (front ++ back) p i = .ok v n)
    (hn : n ≤ front.length) : read front p i = .ok v n := by
  unfold Cuts at h
  rw [hok] at h
  generalize read front p i = w at h ⊢
  cases h with
  | same => rfl
  | lost | short => omega

/-- What is read in the beginning is also there in the whole text, or the parser has gone beyond. -/
theorem Cuts.of_ok (h : Cuts front back K p i) (hok : read front p i = .ok v n) :
    read (front ++ back) p i = .ok v n ∨ read (front ++ back) p i = .dead ∨
      K n ∧ ∃ v' n', read (front ++ back) p i = .ok v' n' ∧ front.length < n' := by
  unfold Cuts at h
  rw [hok] at h
  generalize hwhole : read (front ++ back) p i = w at h ⊢
  cases h with
  | same => exact .inl rfl
  | short hlt hle hK => exact .inr (.inr ⟨hK, _, _, rfl, hlt⟩)
  | dead => exact .inr (.inl rfl)

theorem beyond_map (hn : n ≤ text.length) (hlt : last < n) :
    ∀ w m, (read text p n).map f = .ok w m → last < m := by
  intro w m hok
  obtain ⟨v, hread, -⟩ := map_eq_ok.mp hok
  have := read_bounds hread hn
  omega

/-! ### Sequences and alternatives -/

theorem Cuts.map (h : Cuts front back K p i) (f : α → β) : Cuts front back K (.map f p) i := by
  unfold Cuts
  rw [read_map, read_map]
  exact Cut.map h f

theorem Cuts.label (h : Cuts front back K p i) (name : String) :
    Cuts front back K (.label p name) i := by
  unfold Cuts
  rw [read_label, read_label]
  exact h

theorem Cuts.call (h : Cuts front back K (bodyOf r) i) :
    Cuts front back K (Parse.Parser.call (S := language) r) i := by
  unfold Cuts
  rw [read_call, read_call]
  exact h

/-- What happens in the beginning where a parser is to follow one that has ended early: it misses,
or it never misses and ends at a place of the kind `K`. -/
def Closes (front back : List Char) (K : Nat → Prop) (p : Parser α) (n : Nat) : Prop :=
  read front p n = .miss ∨
    (∀ m, m ≤ (front ++ back).length → read (front ++ back) p m ≠ .miss) ∧
      ∃ v m, read front p n = .ok v m ∧ K m

variable (hi : i ≤ front.length)
include hi

theorem Cuts.seq_after {p : Parser (α → β)} (hp : Cuts front back L p i)
    (hq : ∀ n, Spans (front ++ back) p i n → n ≤ front.length → Cuts front back K q n)
    (hshort : ∀ n, n ≤ front.length → L n → Closes front back K q n) :
    Cuts front back K (.seq p q) i := by
  unfold Cuts
  rw [read_seq, read_seq]
  refine Cut.bind hp ?_ ?_ ?_
  · intro f n hok hn
    exact Cut.map (hq n ⟨f, hok⟩ hn) f
  · intro f n hok hn
    exact beyond_map (read_bounds hok (le_append hi)).2.1 hn
  · intro f n hn hK
    rcases hshort n hn hK with hmiss | ⟨hnever, v, m, hok, hm⟩
    · exact .inl (map_eq_miss.mpr hmiss)
    · refine .inr ⟨fun f n hfirst hmiss => ?_, f v, m, ?_, ?_, hm⟩
      · exact hnever n (read_bounds hfirst (le_append hi)).2.1 (map_eq_miss.mp hmiss)
      · exact map_eq_ok.mpr ⟨v, hok, rfl⟩
      · exact (read_bounds hok hn).2.1

theorem Cuts.seq {p : Parser (α → β)} (hp : Cuts front back L p i)
    (hq : Past front p i (Cuts front back K q))
    (hshort : ∀ n, n ≤ front.length → L n → Closes front back K q n) :
    Cuts front back K (.seq p q) i := by
  refine Cuts.seq_after hi hp (fun n hspans hn => ?_) hshort
  have hbounds := hspans.bounds (le_append hi)
  exact hq n hbounds.1 hbounds.2.2 hn

theorem Cuts.skip {p : Parser β} (hp : Cuts front back L p i)
    (hq : Past front p i (Cuts front back K q))
    (hshort : ∀ n, n ≤ front.length → L n → Closes front back K q n) :
    Cuts front back K (p *> q) i :=
  Cuts.seq hi (hp.map _) hq hshort

theorem Cuts.keep {q : Parser β} (hp : Cuts front back L p i)
    (hq : Past front p i (Cuts front back K q))
    (hshort : ∀ n, n ≤ front.length → L n → Closes front back K q n) :
    Cuts front back K (p <* q) i :=
  Cuts.seq hi (hp.map _) hq hshort

theorem Firm.seq {p : Parser (α → β)} (hp : Firm front back p i)
    (hq : Past front p i (Cuts front back K q)) : Cuts front back K (.seq p q) i :=
  Cuts.seq hi hp hq fun _ _ => False.elim

theorem Firm.skip {p : Parser β} (hp : Firm front back p i)
    (hq : Past front p i (Cuts front back K q)) : Cuts front back K (p *> q) i :=
  Firm.seq hi (hp.map _) hq

theorem Firm.keep {q : Parser β} (hp : Firm front back p i)
    (hq : Past front p i (Cuts front back K q)) : Cuts front back K (p <* q) i :=
  Firm.seq hi (hp.map _) hq

omit hi in
theorem Cuts.alt (hp : Cuts front back K p i) (hq : Cuts front back K q i)
    (hopen : read (front ++ back) q i ≠ .dead)
    (hboth : ∀ v n v' n', read (front ++ back) p i = .ok v n → front.length < n →
      read (front ++ back) q i = .ok v' n' → n' ≤ front.length → K n') :
    Cuts front back K (.alt p q) i := by
  unfold Cuts
  rw [read_alt, read_alt]
  exact Cut.orElse hp hq hopen fun v n v' n' hok hn _ => hboth v n v' n' hok hn

omit hi in
theorem Cuts.fail : Cuts front back K (.fail : Parser α) i := by
  unfold Cuts
  rw [read_fail, read_fail]
  exact .miss

theorem Cuts.optional (hp : Cuts front back K p i)
    (hlost : ∀ v n, read (front ++ back) p i = .ok v n → front.length < n → K i) :
    Cuts front back K (.optional p) i := by
  unfold Cuts
  rw [read_optional, read_optional]
  refine Cut.orElse (Cut.map hp some) (.same hi) nofun ?_
  intro v n v' n' hok hn _ hnone hn'
  cases hnone
  obtain ⟨v, hread, -⟩ := map_eq_ok.mp hok
  exact hlost v n hread hn

/-! ### Repetition -/

omit hi in
theorem read_many_ne_miss (hi : i ≤ text.length) : read text (.many p) i ≠ .miss := by
  induction hleft : text.length - i using Nat.strongRecOn generalizing i with
  | ind left ih =>
    rw [read_many]
    cases hfirst : read text p i with
    | ok v n =>
      have hbounds := read_bounds hfirst hi
      dsimp only
      split
      · exact nofun
      next hmoves =>
        rw [Ne, map_eq_miss]
        exact ih _ (by omega) hbounds.2.1 rfl
    | miss | dead => exact nofun

theorem Cuts.many (hnullable : p.nullable (fun _ => false) = false)
    (hp : ∀ j, i ≤ j → j ≤ front.length → Cuts front back L p j)
    (hlost : ∀ j v n, i ≤ j → j ≤ front.length → read (front ++ back) p j = .ok v n →
      front.length < n → read front p j = .miss → K j)
    (hshort : ∀ j, j ≤ front.length → L j → read front p j = .miss ∧ K j) :
    Cuts front back K (.many p) i := by
  induction hleft : front.length - i using Nat.strongRecOn generalizing i with
  | ind left ih =>
    have hfirst := hp i (Nat.le_refl i) hi
    unfold Cuts at hfirst ⊢
    rw [read_many, @read_many _ front]
    generalize hwhole : read (front ++ back) p i = v at hfirst ⊢
    generalize hbegin : read front p i = w at hfirst ⊢
    cases hfirst with
    | miss => exact .same hi
    | @same v n hn =>
      have hlt := (read_bounds hbegin hi).2.2 hnullable
      have hne : n ≠ i := by omega
      simp only [if_neg hne]
      refine Cut.map (ih _ (by omega) hn ?_ ?_ rfl) (v :: ·)
      · exact fun j hj => hp j (by omega)
      · exact fun j v n hj => hlost j v n (by omega)
    | @lost v n hn =>
      have hbounds := read_bounds hwhole (le_append hi)
      have hne : n ≠ i := by omega
      simp only [if_neg hne]
      refine Cut.of_beyond_ok (beyond_map hbounds.2.1 hn) ?_ [] hi ?_
      · exact fun hmiss => read_many_ne_miss hbounds.2.1 (map_eq_miss.mp hmiss)
      · exact hlost i v n (Nat.le_refl i) hi hwhole hn hbegin
    | @short v v' n n' hn hn' hK =>
      have hbounds := read_bounds hwhole (le_append hi)
      have hlt := (read_bounds hbegin hi).2.2 hnullable
      have hne : n ≠ i := by omega
      have hne' : n' ≠ i := by omega
      obtain ⟨hmiss, hK'⟩ := hshort n' hn' hK
      have hrest : read front (.many p) n' = .ok [] n' := by rw [read_many, hmiss]
      simp only [if_neg hne, if_neg hne', hrest]
      refine Cut.of_beyond_ok (beyond_map hbounds.2.1 hn) ?_ [v'] hn' hK'
      exact fun hmiss => read_many_ne_miss hbounds.2.1 (map_eq_miss.mp hmiss)
    | dead => exact .dead

omit hi in
theorem closes_many (h : read front p n = .miss ∧ K n) : Closes front back K (.many p) n := by
  refine .inr ⟨fun m hm => read_many_ne_miss hm, [], n, ?_, h.2⟩
  rw [read_many, h.1]

theorem Cuts.many1 (hnullable : p.nullable (fun _ => false) = false)
    (hp : ∀ j, i ≤ j → j ≤ front.length → Cuts front back L p j)
    (hlost : ∀ j v n, i ≤ j → j ≤ front.length → read (front ++ back) p j = .ok v n →
      front.length < n → read front p j = .miss → K j)
    (hshort : ∀ j, j ≤ front.length → L j → read front p j = .miss ∧ K j) :
    Cuts front back K (.many1 p) i := by
  unfold Cuts
  rw [read_many1 (le_append hi) hnullable, read_many1 hi hnullable]
  refine Cuts.seq hi ((hp i (Nat.le_refl i) hi).map _) (fun n hin _ hn => ?_)
    fun n hn hL => closes_many (hshort n hn hL)
  exact Cuts.many hn hnullable (fun j hj => hp j (by omega))
    (fun j v n hj => hlost j v n (by omega)) hshort

omit hi

section

variable {text : List Char} {separator : Parser β}

theorem first_many_eq_miss (hi : i ≤ text.length) :
    read text (.seq (.map List.cons p) (.many q)) i = .miss ↔ read text p i = .miss := by
  rw [read_seq, read_map, bind_eq_miss, map_eq_miss]
  refine or_iff_left ?_
  rintro ⟨f, m, hok, hmiss⟩
  obtain ⟨v, hfirst, -⟩ := map_eq_ok.mp hok
  exact read_many_ne_miss (read_bounds hfirst hi).2.1 (map_eq_miss.mp hmiss)

/-- A list is nothing where its first item is missed. -/
theorem read_list (hi : i ≤ text.length) :
    read text (.sepBy p separator) i =
      read text (.alt (.seq (.map List.cons p) (.many (separator *> p))) (.pure [])) i := by
  rw [read_alt, read_pure, read_sepBy]
  cases hfirst : read text p i with
  | ok v n =>
    have hne := mt (first_many_eq_miss (q := separator *> p) hi).mp (by rw [hfirst]; exact nofun)
    rw [read_seq, read_map, hfirst] at hne ⊢
    exact (orElse_of_ne_miss hne).symm
  | miss => rw [(first_many_eq_miss hi).mpr hfirst]; rfl
  | dead => rw [read_seq, read_map, hfirst]; rfl

theorem Cuts.sepBy (hi : i ≤ front.length) (hp : Cuts front back L p i)
    (hothers : ∀ n, i ≤ n → n ≤ front.length → Cuts front back K (.many (separator *> p)) n)
    (hlost : ∀ v n, read (front ++ back) p i = .ok v n → front.length < n →
      read front p i = .miss → K i)
    (hshort : ∀ j, j ≤ front.length → L j → read front (separator *> p) j = .miss ∧ K j) :
    Cuts front back K (.sepBy p separator) i := by
  have hlist := Cuts.seq hi (hp.map List.cons) (fun n hin _ hn => hothers n hin hn)
    fun n hn hL => closes_many (hshort n hn hL)
  unfold Cuts
  rw [read_list (le_append hi), read_list hi, read_alt, read_alt, read_pure, read_pure]
  refine Cut.orElse hlist (.same hi) nofun fun values n values' n' hok _ hmiss hnone _ => ?_
  cases hnone
  rw [first_many_eq_miss hi] at hmiss
  rw [read_seq, read_map] at hok
  obtain ⟨f, m, hfirst, -⟩ := bind_eq_ok.mp hok
  obtain ⟨v, hfirst, -⟩ := map_eq_ok.mp hfirst
  refine hlost v m hfirst (Nat.lt_of_not_le fun hm => ?_) hmiss
  cases hmiss.symm.trans (hp.eq_ok hfirst hm)

end

/-! ### Places where nothing fits -/

/-- At the place the beginning is over, or it goes on with one of the given characters. -/
def Ends (front heads : List Char) (n : Nat) : Prop :=
  ∀ c, (front.drop n).head? = some c → c ∈ heads

/-- Whether the parser takes nothing at the end of a text and before the given characters. -/
def still (heads : List Char) (p : Parser α) : Bool :=
  !begins none p && heads.all fun c => !begins (some c) p

/-- Whether the parser misses at the end of a text and before the given characters. -/
def shut (heads : List Char) (p : Parser α) : Bool :=
  !p.nullable (fun _ => false) && still heads p

variable {heads heads' : List Char}

theorem Ends.mono (h : Ends front heads n) (hheads : heads ⊆ heads') : Ends front heads' n :=
  fun c hc => hheads (h c hc)

theorem ends_of_le (hn : front.length ≤ n) : Ends front heads n := by
  intro c hc
  rw [List.drop_eq_nil_of_le hn] at hc
  cases hc

theorem Ends.of_whole (h : Ends (front ++ back) heads n) : Ends front heads n := by
  intro c hc
  refine h c ?_
  rcases Nat.lt_or_ge front.length n with hlt | hle
  · rw [List.drop_eq_nil_of_le (Nat.le_of_lt hlt)] at hc
    cases hc
  · rw [List.drop_append_of_le_length hle]
    cases hrest : front.drop n with
    | nil => cases hrest ▸ hc
    | cons d rest =>
      rw [hrest] at hc
      exact hc

theorem ends_of_ne_miss (heads : List Char) (h : read text p i ≠ .miss) (hi : i ≤ text.length)
    (hp : p.nullable (fun _ => false) = false) (hheads : ∀ c, begins (some c) p = true →
      c ∈ heads) :
    Ends text heads i := by
  intro c hc
  refine hheads c ?_
  by_contra hbegins
  exact h (read_eq_miss hi (by rw [hc]; exact Bool.eq_false_iff.mpr hbegins) hp)

theorem ends_of_read (heads : List Char) (h : read text p i = .ok v n) (hi : i ≤ text.length)
    (hp : p.nullable (fun _ => false) = false) (hheads : ∀ c, begins (some c) p = true →
      c ∈ heads) :
    Ends text heads i :=
  ends_of_ne_miss heads (by rw [h]; exact nofun) hi hp hheads

theorem Ends.idle (h : Ends front heads n) (hn : n ≤ front.length) (hp : still heads p = true) :
    Idle n (read front p n) := by
  simp only [still, Bool.and_eq_true, Bool.not_eq_true', List.all_eq_true] at hp
  refine read_idle hn ?_
  cases hhead : (front.drop n).head? with
  | none => exact hp.1
  | some c => exact hp.2 c (h c hhead)

theorem Ends.eq_miss (h : Ends front heads n) (hn : n ≤ front.length)
    (hp : shut heads p = true) : read front p n = .miss := by
  simp only [shut, Bool.and_eq_true, Bool.not_eq_true'] at hp
  rcases h.idle hn hp.2 with hmiss | ⟨v, hok⟩
  · exact hmiss
  · exact absurd ((read_bounds hok hn).2.2 hp.1) (Nat.lt_irrefl n)

theorem shut_mono (h : shut heads p = true) (hheads : heads' ⊆ heads) : shut heads' p = true := by
  simp only [shut, still, Bool.and_eq_true, List.all_eq_true] at h ⊢
  exact ⟨h.1, h.2.1, fun c hc => h.2.2 c (hheads hc)⟩

theorem Cuts.alt_of_heads (heads : List Char) (hi : i ≤ front.length)
    (hp : Cuts front back K p i) (hq : Cuts front back K q i)
    (hnullable : p.nullable (fun _ => false) = false)
    (hheads : ∀ c, begins (some c) p = true → c ∈ heads) (hshut : shut heads q = true)
    (hopen : harmless q = true) : Cuts front back K (.alt p q) i := by
  refine hp.alt hq (read_ne_dead hopen) fun v n v' n' hok _ hother _ => ?_
  have hends := ends_of_read heads hok (le_append hi) hnullable hheads
  cases hother.symm.trans (hends.eq_miss (le_append hi) hshut)

theorem Ends.closes (hn : n ≤ front.length) (h : Ends front heads n) (hp : shut heads p = true) :
    Closes front back K p n :=
  .inl (h.eq_miss hn hp)

section

variable {H : List Char}

variable (hi : i ≤ front.length)
include hi

theorem Cuts.seq_shut {p : Parser (α → β)} (hp : Cuts front back (Ends front H) p i)
    (hshut : shut H q = true) (hq : Past front p i (Cuts front back K q)) :
    Cuts front back K (.seq p q) i :=
  Cuts.seq hi hp hq fun _ hn h => h.closes hn hshut

theorem Cuts.skip_shut {p : Parser β} (hp : Cuts front back (Ends front H) p i)
    (hshut : shut H q = true) (hq : Past front p i (Cuts front back K q)) :
    Cuts front back K (p *> q) i :=
  Cuts.seq_shut hi (hp.map _) hshut hq

theorem Cuts.keep_shut {q : Parser β} (hp : Cuts front back (Ends front H) p i)
    (hshut : shut H q = true) (hq : Past front p i (Cuts front back K q)) :
    Cuts front back K (p <* q) i :=
  Cuts.seq_shut hi (hp.map _) hshut hq

end

theorem read_certain (hp : p.certain = true) (hi : i ≤ text.length) : read text p i ≠ .miss := by
  induction p generalizing i with
  | token shape name =>
    obtain ⟨k, hk⟩ := Parse.Pattern.match?_of_certain hp (text.drop i)
    rw [read_token hi, hk]
    exact nofun
  | map f p ih =>
    rw [read_map, Ne, map_eq_miss]
    exact ih hp hi
  | seq p q ih₁ ih₂ =>
    obtain ⟨hp₁, hp₂⟩ := Bool.and_eq_true_iff.mp hp
    rw [read_seq, Ne, bind_eq_miss]
    rintro (hmiss | ⟨f, n, hok, hmiss⟩)
    · exact ih₁ hp₁ hi hmiss
    · exact ih₂ hp₂ (read_bounds hok hi).2.1 (map_eq_miss.mp hmiss)
  | optional p =>
    rw [read_optional, Ne, orElse_eq_miss]
    exact fun h => nomatch h.2
  | many p => exact read_many_ne_miss hi
  | sepBy p separator =>
    rw [read_sepBy]
    cases hfirst : read text p i with
    | ok v n =>
      rw [Ne, map_eq_miss]
      exact read_many_ne_miss (read_bounds hfirst hi).2.1
    | miss | dead => exact nofun
  | _ => cases hp

theorem Ends.closes_still (hn : n ≤ front.length) (h : Ends front heads n)
    (hcertain : p.certain = true) (hp : still heads p = true) (hK : K n) :
    Closes front back K p n := by
  rcases h.idle hn hp with hmiss | ⟨v, hok⟩
  · exact absurd hmiss (read_certain hcertain hn)
  · exact .inr ⟨fun m hm => read_certain hcertain hm, v, n, hok, hK⟩

end
end AgentLang.Grammar
