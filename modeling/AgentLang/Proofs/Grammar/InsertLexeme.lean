import AgentLang.Proofs.Grammar.Carry
import AgentLang.Proofs.Grammar.CutStatement

/-!
# Inserting a semicolon: lexemes

A text is compared with another one that goes on with a semicolon where the first one goes on with
something that ends a statement. Lexemes that hold no semicolon are the same up to that place.
Strings and comments may go over it, and then they do so in both texts.
-/

namespace AgentLang.Parse

/-- Whether the words of a pattern do without a character. -/
def Pattern.spares (c : Char) : Pattern → Bool
  | .one accepts => !accepts c
  | .exactly literal => !literal.contains c
  | .seq first second => first.spares c && second.spares c
  | .alt first second => first.spares c && second.spares c
  | .star item => item.spares c
  | .unless _ => true
  | .through _ => false

/-- Whether a parser without rules takes no text with the character in it. -/
def Parser.spares {S : Signature} (c : Char) : {α : Type} → Parser S α → Bool
  | _, .text literal _ => !literal.contains c
  | _, .keyword word _ => !word.contains c
  | _, .token shape _ => shape.spares c
  | _, .fail => true
  | _, .map _ p => p.spares c
  | _, .seq p q => p.spares c && q.spares c
  | _, .alt p q => p.spares c && q.spares c
  | _, .notFollowedBy _ _ => true
  | _, .label p _ => p.spares c
  | _, _ => false

end AgentLang.Parse

namespace AgentLang.Grammar

open List
open Verdict
open Parse (Pattern)
open Parse.Parser (lit word)

variable {α β : Type} {front back rest : List Char} {K L : Nat → Prop} {i k m n : Nat}

/-! ### Lexemes without the character -/

theorem within_of_spares (h : shape.spares c = true) : Within (· != c) shape := by
  induction shape with
  | one accepts =>
    intro d hd
    have hc : accepts c = false := by simpa [Pattern.spares] using h
    rw [bne_iff_ne]
    rintro rfl
    cases hc.symm.trans hd
  | exactly literal =>
    have hc : c ∉ literal := by simpa [Pattern.spares] using h
    refine all_eq_true.mpr fun d hd => ?_
    rw [bne_iff_ne]
    rintro rfl
    exact hc hd
  | seq _ _ ih₁ ih₂ | alt _ _ ih₁ ih₂ =>
    obtain ⟨h₁, h₂⟩ := Bool.and_eq_true_iff.mp h
    exact ⟨ih₁ h₁, ih₂ h₂⟩
  | star item ih => exact ih h
  | «unless» literal => trivial
  | through literal => cases h

theorem le_of_not_mem_take (c : Char) (rest : List Char) (hi : i ≤ front.length)
    (h : c ∉ ((front ++ c :: rest).drop i).take k) : i + k ≤ front.length := by
  by_contra hlt
  refine h ?_
  rw [drop_whole hi, take_append]
  refine mem_append_right _ ?_
  obtain ⟨more, hmore⟩ : ∃ more, k - (front.drop i).length = more + 1 :=
    ⟨k - (front.drop i).length - 1, by rw [length_drop]; omega⟩
  rw [hmore]
  exact mem_cons_self

theorem read_stays (hp : p.spares c = true) (hi : i ≤ front.length)
    (h : read (front ++ c :: rest) p i = .ok v n) : n ≤ front.length := by
  have hliteral : ∀ {literal : List Char} {i}, i ≤ front.length → (!literal.contains c) = true →
      literal.isPrefixOf ((front ++ c :: rest).drop i) = true →
      i + literal.length ≤ front.length := by
    intro literal i hi hc hstarts
    refine le_of_not_mem_take c rest hi ?_
    rw [← prefix_iff_eq_take.mp (List.isPrefixOf_iff_prefix.mp hstarts)]
    simpa using hc
  induction p generalizing i n with
  | text literal name =>
    rw [read_text (le_append hi)] at h
    split at h
    next hstarts =>
      cases h
      exact hliteral hi hp hstarts
    next => cases h
  | keyword word name =>
    rw [read_keyword (le_append hi)] at h
    split at h
    next hstarts =>
      cases h
      exact hliteral hi hp hstarts.1
    next => cases h
  | token shape name =>
    rw [read_token (le_append hi)] at h
    split at h
    next taken hmatch =>
      cases h
      refine le_of_not_mem_take c rest hi fun hmem => ?_
      have hne := (within_of_spares hp).of_accepts (Pattern.match?_accepts hmatch).2 c hmem
      simp at hne
    next => cases h
  | fail => cases read_fail.symm.trans h
  | map f p ih =>
    rw [read_map] at h
    obtain ⟨u, hread, -⟩ := map_eq_ok.mp h
    exact ih hp hi hread
  | seq p q ih₁ ih₂ =>
    obtain ⟨hp₁, hp₂⟩ := Bool.and_eq_true_iff.mp hp
    rw [read_seq] at h
    obtain ⟨f, m, hfirst, hrest⟩ := bind_eq_ok.mp h
    obtain ⟨u, hsecond, -⟩ := map_eq_ok.mp hrest
    exact ih₂ hp₂ (ih₁ hp₁ hi hfirst) hsecond
  | alt p q ih₁ ih₂ =>
    obtain ⟨hp₁, hp₂⟩ := Bool.and_eq_true_iff.mp hp
    rw [read_alt] at h
    rcases orElse_eq_ok.mp h with hfirst | ⟨-, hsecond⟩
    · exact ih₁ hp₁ hi hfirst
    · exact ih₂ hp₂ hi hsecond
  | notFollowedBy p name =>
    rw [read_notFollowedBy] at h
    split at h
    · cases h
    · cases h
      exact hi
  | label p name ih =>
    rw [read_label] at h
    exact ih hp hi h
  | _ => cases hp

/-! ### What persists before a semicolon -/

/-- What is read of the text up to the place is read of the one with a semicolon there, unless it
ends at a place of the kind `K`. -/
abbrev Persists (front back rest : List Char) (K : Nat → Prop) (p : Parser α) (i : Nat) : Prop :=
  Carries front back (front ++ ';' :: rest) K p i

/-- What is read of the text up to the place is always read of the one with a semicolon there. -/
abbrev Stable (front back rest : List Char) (p : Parser α) (i : Nat) : Prop :=
  Keeps front back (front ++ ';' :: rest) p i

/-- So is what is missed. -/
abbrev Inert (front back rest : List Char) (p : Parser α) (i : Nat) : Prop :=
  Mirrors front back (front ++ ';' :: rest) p i

theorem tight_semicolon : Tight front (';' :: rest) := by
  intro _ b _ hb
  cases hb
  exact .inr (by decide)

section

variable {p : Parser α}

theorem Cuts.persists (hsource : Cuts front back K p i) (htarget : Cuts front (';' :: rest) L p i)
    (hopen : harmless p = true) : Persists front back rest L p i := by
  intro v n hok hn
  rcases htarget.of_ok (hsource.eq_ok hok hn) with hsame | hdead | ⟨hL, -⟩
  · exact .inl hsame
  · exact absurd hdead (read_ne_dead hopen)
  · exact .inr hL

/-- Where only the text without the semicolon misses, the other one goes beyond the place. -/
theorem Cuts.beyond (hsource : Cuts front back K p i) (htarget : Cuts front (';' :: rest) L p i)
    (hopen : harmless p = true) (hmiss : read (front ++ back) p i = .miss)
    (hne : read (front ++ ';' :: rest) p i ≠ .miss) :
    ∃ n, Spans (front ++ ';' :: rest) p i n ∧ front.length < n := by
  obtain ⟨n, v, hread⟩ := spans_of_ne_miss hopen hne
  refine ⟨n, ⟨v, hread⟩, ?_⟩
  by_contra hle
  cases (hsource.eq_miss hmiss).symm.trans (htarget.eq_ok hread (Nat.le_of_not_lt hle))

variable (ht : Tight front back) (hi : i ≤ front.length)
include hi

theorem inert_of_cuts (hsource : Cuts front back K p i) (htarget : Cuts front (';' :: rest) L p i)
    (hopen : harmless p = true) (hspares : p.spares ';' = true) : Inert front back rest p i where
  keeps v n hok hn := by
    rcases htarget.of_ok (hsource.eq_ok hok hn) with hsame | hdead | ⟨-, v', n', hother, hlt⟩
    · exact .inl hsame
    · exact absurd hdead (read_ne_dead hopen)
    · exact absurd (read_stays hspares hi hother) (Nat.not_le_of_lt hlt)
  misses hmiss := by
    by_contra hne
    obtain ⟨n, ⟨v, hread⟩, hlt⟩ := hsource.beyond htarget hopen hmiss hne
    exact absurd (read_stays hspares hi hread) (Nat.not_le_of_lt hlt)

theorem inert_ws : Inert front back rest ws i :=
  inert_of_cuts hi (cuts_ws hi) (cuts_ws hi) rfl rfl

theorem inert_ws1 : Inert front back rest ws1 i :=
  inert_of_cuts hi (cuts_ws1 hi) (cuts_ws1 hi) rfl rfl

theorem inert_blank : Inert front back rest blank i :=
  inert_of_cuts hi (cuts_star_one hi) (cuts_star_one hi) rfl rfl

theorem inert_lit (hspares : (lit text : Parser String).spares ';' = true) :
    Inert front back rest (lit text) i :=
  inert_of_cuts hi (firm_lit hi text) (firm_lit hi text) rfl hspares

theorem inert_closing (hspares : (closing text).spares ';' = true) :
    Inert front back rest (closing text) i :=
  inert_of_cuts hi (firm_closing hi text) (firm_closing hi text) rfl hspares

include ht

theorem inert_word (htext : isWord text = true) : Inert front back rest (word text) i := by
  refine inert_of_cuts hi (firm_word ht hi htext) (firm_word tight_semicolon hi htext) rfl ?_
  have hall := (Bool.and_eq_true_iff.mp htext).2
  have hnone : ';' ∉ text.toList := fun hmem => absurd (all_eq_true.mp hall _ hmem) (by decide)
  simpa [word, Parse.Parser.spares] using hnone

theorem inert_identifier : Inert front back rest identifier i :=
  inert_of_cuts hi (firm_identifier ht hi) (firm_identifier tight_semicolon hi) rfl rfl

omit ht in
theorem inert_operator : Inert front back rest operator i :=
  inert_of_cuts hi (cuts_operator hi) (cuts_operator hi) rfl rfl

end

/-! ### Places before other characters -/

/-- The beginning goes on at the place, with one of the given characters. -/
def Leads (front heads : List Char) (n : Nat) : Prop :=
  ∃ c ∈ heads, (front.drop n).head? = some c

section

variable {heads heads' : List Char} {p : Parser α}

theorem lt_of_head (h : (front.drop n).head? = some c) : n < front.length := by
  by_contra hle
  rw [drop_eq_nil_of_le (Nat.le_of_not_lt hle)] at h
  cases h

theorem Leads.lt (h : Leads front heads n) : n < front.length := by
  obtain ⟨c, -, hc⟩ := h
  exact lt_of_head hc

theorem Leads.mono (h : Leads front heads n) (hheads : heads ⊆ heads') : Leads front heads' n := by
  obtain ⟨c, hc, hhead⟩ := h
  exact ⟨c, hheads hc, hhead⟩

theorem head_whole (hn : n < front.length) :
    ((front ++ back).drop n).head? = some c ↔ (front.drop n).head? = some c := by
  rw [drop_whole (Nat.le_of_lt hn)]
  cases hrest : front.drop n with
  | nil => exact absurd (drop_eq_nil_iff.mp hrest) (Nat.not_le_of_lt hn)
  | cons d others => rfl

theorem Ends.whole (h : Ends front heads n) (hn : n < front.length) : Ends (front ++ back) heads n :=
  fun c hc => h c ((head_whole hn).mp hc)

theorem Leads.ends (h : Leads front heads n) : Ends (front ++ back) heads n := by
  obtain ⟨c, hc, hhead⟩ := h
  refine Ends.whole (fun d hd => ?_) (lt_of_head hhead)
  cases hd.symm.trans hhead
  exact hc

theorem Leads.not_spans (h : Leads front heads n) (hshut : shut heads p = true) :
    ¬Spans (front ++ back) p n m :=
  h.ends.not_spans (le_append (Nat.le_of_lt h.lt)) hshut

theorem Leads.clash (h : Leads front heads n) (hspans : Spans (front ++ back) p n m)
    (hshut : shut heads p = true) : False :=
  h.not_spans hshut hspans

theorem Ends.leads (h : Ends (front ++ ';' :: rest) heads n) (hn : n ≤ front.length)
    (hheads : ';' ∉ heads) : Leads front heads n := by
  have hlt : n < front.length := by
    rcases Nat.lt_or_eq_of_le hn with hlt | rfl
    · exact hlt
    · exact absurd (h ';' (by simp)) hheads
  cases hrest : front.drop n with
  | nil => exact absurd (drop_eq_nil_iff.mp hrest) (Nat.not_le_of_lt hlt)
  | cons c others => exact ⟨c, h c ((head_whole hlt).mpr (by rw [hrest]; rfl)), by rw [hrest]; rfl⟩

theorem Ends.not_inside (h : Ends front heads m) (hshut : shut heads p = true)
    (hm : m ≤ front.length) (hspans : Spans (front ++ back) p m n) : ¬n ≤ front.length := by
  intro hn
  have hmoves : p.nullable (fun _ => false) = false := by
    simp only [shut, Bool.and_eq_true, Bool.not_eq_true'] at hshut
    exact hshut.1
  have hlt := (hspans.bounds (le_append hm)).2.2 hmoves
  exact (h.whole (by omega)).not_spans (le_append hm) hshut hspans

end

/-! ### Free space and commas -/

section

variable {p : Parser α} {q : Parser β}

variable (hi : i ≤ front.length)
include hi

theorem persists_space : Persists front back rest (Settled front) space i :=
  (cuts_space hi).persists (cuts_space hi) rfl

theorem Carries.skip_spaced (hp : Persists front back rest (Settled front) p i)
    (hq : Past front p i (Persists front back rest K q)) (hshut : shut ['/'] q = true) :
    Persists front back rest K (p *> q) i :=
  Carries.skip hi hp hq fun _ _ hm hsettled hspans hn =>
    absurd hn (hsettled.1.not_inside hshut hm hspans)

theorem persists_comma : Persists front back rest (Settled front) comma i := by
  refine Keeps.keep hi ?_ fun n _ _ hn => persists_space hn
  exact Carries.skip_spaced hi (persists_space hi) (fun n _ _ hn => (inert_lit hn (by decide)).keeps)
    (by decide)

end

end AgentLang.Grammar
