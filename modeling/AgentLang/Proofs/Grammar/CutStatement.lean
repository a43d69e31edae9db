import AgentLang.Proofs.Grammar.Carry
import AgentLang.Proofs.Grammar.CutExpression
import AgentLang.Proofs.Grammar.Sequel

/-!
# Cutting statements

Statements without blocks of their own. What they say about a whole text and about its beginning
agrees, as long as they stay inside the beginning.
-/

namespace AgentLang.Grammar

open List
open Verdict
open Parse (Pattern)
open Parse.Parser (lit word)

variable {α β : Type} {front back : List Char} {K : Nat → Prop} {i n : Nat}

/-! ### Agreement -/

/-- What is read of the whole text inside the beginning is also read in the beginning alone. -/
abbrev Follows (front back : List Char) (p : Parser α) (i : Nat) : Prop :=
  Keeps front back front p i

/-- So is what is missed. -/
abbrev Agrees (front back : List Char) (p : Parser α) (i : Nat) : Prop :=
  Mirrors front back front p i

section

variable {p q : Parser α}

theorem Cuts.agrees (h : Cuts front back K p i) : Agrees front back p i :=
  ⟨fun _ _ hok hn => .inl (h.eq_ok hok hn), h.eq_miss⟩

theorem Cuts.follows (h : Cuts front back K p i) : Follows front back p i :=
  h.agrees.keeps

theorem follows_closed (mark : String) (hi : i ≤ front.length) :
    Follows front back (space *> closing mark) i :=
  Keeps.skip hi (cuts_space hi).follows fun _ _ _ hn => (firm_closing hn mark).follows

theorem Cuts.seq_miss {p : Parser (α → β)} (hi : i ≤ front.length) (hp : Cuts front back K p i)
    (hq : ∀ n, i ≤ n → n ≤ front.length → read (front ++ back) q n = .miss →
      read front q n = .miss) (hshort : ∀ n, n ≤ front.length → K n → read front q n = .miss)
    (h : read (front ++ back) (.seq p q) i = .miss) : read front (.seq p q) i = .miss := by
  rw [read_seq] at h ⊢
  unfold Cuts at hp
  generalize hwhole : read (front ++ back) p i = v at hp h
  generalize hbegin : read front p i = w at hp ⊢
  cases hp with
  | miss => rfl
  | @same f n hn =>
    have hrest : read (front ++ back) q n = .miss := map_eq_miss.mp h
    exact map_eq_miss.mpr (hq n (read_bounds hbegin hi).1 hn hrest)
  | lost hlt => rfl
  | @short f f' n n' hlt hle hK => exact map_eq_miss.mpr (hshort n' hle hK)
  | dead => cases h

end

/-! ### Marks that something must not follow -/

theorem firm_notFollowedBy (hi : i ≤ front.length) (hp : Firm front back p i)
    (hopen : harmless p = true)
    (hinside : ∀ v n, read (front ++ back) p i = .ok v n → n ≤ front.length) :
    Firm front back (.notFollowedBy p name) i := by
  unfold Firm Cuts at hp ⊢
  rw [read_notFollowedBy, read_notFollowedBy]
  generalize hwhole : read (front ++ back) p i = v at hp hinside ⊢
  generalize read front p i = w at hp ⊢
  cases hp with
  | miss => exact .same hi
  | same hle => exact .miss
  | lost hlt | short hlt => exact absurd (hinside _ _ rfl) (Nat.not_le_of_lt hlt)
  | dead => exact absurd hwhole (read_ne_dead hopen)

/-- A mark that ends no statement is not cut from a single character that must not follow it. -/
theorem Tight.firm_guard (ht : Tight front back) (hn : n + 1 ≤ front.length)
    (hmark : (front.drop n).head? = some c) (hc : c ∉ ended) (hp : Firm front back p (n + 1))
    (hopen : harmless p = true) (hshut : shut stops p = true)
    (hsingle : ∀ v m, read (front ++ back) p (n + 1) = .ok v m → m = n + 2) :
    Firm front back (.notFollowedBy p name) (n + 1) := by
  refine firm_notFollowedBy hn hp hopen fun v m hok => ?_
  have hm := hsingle v m hok
  by_contra hlt
  have hend : n + 1 = front.length := by omega
  obtain ⟨rest, hrest⟩ := head?_eq_some_iff.mp hmark
  have hlast : front.drop n = [c] := by
    have hlength := congrArg List.length hrest
    rw [length_drop, length_cons] at hlength
    rw [hrest, length_eq_zero_iff.mp (show rest.length = 0 by omega)]
  have hends : Ends (front ++ back) stops (n + 1) := by
    intro b hb
    rw [hend, drop_left] at hb
    have hlast' : front.getLast? = some c := getLast?_of_drop hlast (cons_ne_nil c [])
    exact (ht c b hlast' hb).resolve_left hc
  cases hok.symm.trans (hends.eq_miss (le_append hn) hshut)

/-! ### Words -/

/-- The parser takes something, and it never goes from the beginning into the rest. -/
structure Inside (front back : List Char) (p : Parser α) (i : Nat) : Prop where
  firm : Firm front back p i
  moves : p.nullable (fun _ => false) = false
  harmless : harmless p = true
  stays : ∀ v n, read (front ++ back) p i = .ok v n → front.length < n → front.length ≤ i

namespace Inside

theorem word (ht : Tight front back) (hi : i ≤ front.length) (htext : isWord text = true) :
    Inside front back (Parse.Parser.word text : Parser String) i where
  firm := firm_word ht hi htext
  moves := by simpa using (Bool.and_eq_true_iff.mp htext).1
  harmless := rfl
  stays _ _ hok hn := keyword_inside ht hi (Bool.and_eq_true_iff.mp htext).2 hok hn

theorem map {p : Parser α} (h : Inside front back p i) (f : α → β) :
    Inside front back (f <$> p) i where
  firm := Cuts.map h.firm f
  moves := h.moves
  harmless := h.harmless
  stays v n hok hn := by
    obtain ⟨u, hread, -⟩ := map_eq_ok.mp ((read_fmap f p).symm.trans hok)
    exact h.stays u n hread hn

theorem choice (hi : i ≤ front.length) (h : ∀ p ∈ ps, Inside front back p i) :
    Inside front back (Parse.Parser.choice ps) i := by
  induction ps with
  | nil =>
    refine ⟨Cuts.fail, rfl, rfl, fun v n hok _ => ?_⟩
    cases read_choice_nil.symm.trans hok
  | cons p ps ih =>
    have hp := h p mem_cons_self
    have hps := ih fun q hq => h q (mem_cons_of_mem p hq)
    have hharmless : Grammar.harmless (Parse.Parser.choice (p :: ps)) = true :=
      harmless_choice fun q hq => (h q hq).harmless
    refine ⟨Cuts.alt_of_inside hi hp.firm hps.firm hps.moves hps.harmless hp.stays, ?_, hharmless, ?_⟩
    · exact congrArg₂ (· || ·) hp.moves hps.moves
    · intro v n hok hn
      rcases orElse_eq_ok.mp ((read_choice_cons p ps).symm.trans hok) with hok | ⟨-, hok⟩
      · exact hp.stays v n hok hn
      · exact hps.stays v n hok hn

end Inside

theorem firm_words (ht : Tight front back) (hi : i ≤ front.length) (hu : isWord u = true)
    (hv : isWord v = true) : Firm front back (Parse.Parser.choice [word u, word v]) i := by
  refine (Inside.choice hi ?_).firm
  simp only [forall_mem_cons, not_mem_nil, false_imp_iff, implies_true, and_true]
  exact ⟨.word ht hi hu, .word ht hi hv⟩

/-! ### Simple statements -/

variable (ht : Tight front back) (hi : i ≤ front.length)
include ht hi

theorem cuts_typeHint : Cuts front back (Ends front ['[']) typeHint i := by
  refine Cuts.seq_shut hi (Firm.keep_ws hi ?_) (by decide) fun n _ _ hn => cuts_type ht hn
  exact Cuts.keep_lit hi (Firm.keep_ws hi (Cuts.map (firm_identifier ht hi) _)) (by decide)

theorem cuts_specialVar : Cuts front back (fun _ => True) specialVar i := by
  refine Cuts.seq_shut hi (Firm.keep_ws hi ?_) (by decide)
    fun n _ _ hn => (expressions ht hn).value
  refine Cuts.keep_lit hi (Firm.keep_ws hi (Cuts.map ?_ _)) (by decide)
  exact Firm.skip hi (firm_lit hi "@") fun n _ _ hn => firm_words ht hn (by decide) (by decide)

theorem cuts_returnStatement : Cuts front back (fun _ => True) returnStatement i := by
  refine Cuts.map (Firm.skip hi (firm_word ht hi (by decide)) fun n _ _ hn => ?_) _
  refine Cuts.optional hn ?_ fun _ _ _ _ => trivial
  exact Cuts.skip_shut hn (cuts_ws1 hn) (by decide) fun m _ _ hm => (expressions ht hm).value

theorem firm_goto : Firm front back goto i := by
  refine (Cuts.mono (Cuts.listed rfl (by decide) hi (Firm.keep_space hi ?_)
    (fun n _ _ _ j _ hj => (expressions ht hj).simple hj) (by decide) (by decide) (by decide)
    (by decide)) fun n _ h => h.1).closed rfl (by decide) hi
  refine Cuts.keep_lit hi (Firm.keep_ws hi (Cuts.map ?_ _)) (by decide)
  refine Cuts.skip_shut hi (H := []) ?_ (by decide) fun n _ _ hn => firm_identifier ht hn
  exact Firm.skip hi (firm_word ht hi (by decide)) fun n _ _ hn => cuts_ws1 hn

/-- The word or the mark that opens a list of tools, and the first of them. -/
def usesHead : Parser String :=
  Parse.Parser.choice [word "uses" <* ws1, word "use" <* ws1, lit "+"] *> ws *> identifier

theorem firm_usesHead : Firm front back usesHead i := by
  have huse : ∀ {u : String}, isWord u = true →
      Cuts front back (Ends front []) (word u <* ws1 : Parser String) i :=
    fun hu => Firm.keep hi (firm_word ht hi hu) fun n _ _ hn => cuts_ws1 hn
  have hhead : Cuts front back (Ends front [])
      (Parse.Parser.choice [word "uses" <* ws1, word "use" <* ws1, lit "+"]) i := by
    refine Cuts.alt (huse (by decide)) ?_ (read_ne_dead rfl) ?_
    · refine Cuts.alt_of_heads ['u'] hi (huse (by decide))
        (Firm.cuts (Cuts.last (firm_lit hi "+"))) rfl (fun c hc => ?_) (by decide) rfl
      simpa [begins] using hc
    · -- The two words do not stand at one place.
      intro v n v' n' hok _ hother _
      have huses : Spans (front ++ back) (word "uses" <* ws1) i n := ⟨v, hok⟩
      obtain ⟨_, huses, -⟩ := spans_keep.mp huses
      rcases spans_choice_cons.mp ⟨v', hother⟩ with huse | ⟨-, hplus⟩
      · obtain ⟨_, huse, -⟩ := spans_keep.mp huse
        have heq := word_unique (le_append hi) huses huse (by decide) (by decide) (by decide)
          (by decide)
        exact absurd heq (by decide)
      · have hends : Ends (front ++ back) ['u'] i := huses.ends _ (le_append hi) rfl fun c hc => by
          simpa [begins] using hc
        exact absurd hplus (hends.not_spans (le_append hi) (by decide))
  refine Cuts.skip_shut hi (H := []) ?_ (by decide) fun n _ _ hn => firm_identifier ht hn
  exact Cuts.skip hi hhead (fun n _ _ hn => cuts_ws hn)
    (fun n hn h => h.closes_still hn rfl (by decide) h)

theorem cuts_usesTool : Cuts front back (fun _ => True) usesTool i := by
  refine Firm.seq hi (Cuts.map (firm_usesHead ht hi) _) fun n _ _ hn => ?_
  have hstep : ∀ j, j ≤ front.length → Firm front back (comma *> identifier) j := fun j hj =>
    Cuts.skip_shut hj (cuts_comma hj).ends (by decide) fun m _ _ hm => firm_identifier ht hm
  exact Cuts.many hn rfl (fun j _ hj => hstep j hj) (fun _ _ _ _ _ _ _ _ => trivial)
    (fun _ _ => False.elim)

/-! ### Imports -/

theorem firm_nameList : Firm front back nameList i :=
  (Cuts.mono (Cuts.listed (H := []) rfl (by decide) hi
    (Cuts.map (Firm.skip_space hi (firm_lit hi _)) _)
    (fun _ _ _ _ _ _ hj => (firm_identifier ht hj).cuts) (by decide) (by decide) (by decide)
    (by decide)) fun _ _ h => h.1).closed rfl (by decide) hi

omit ht in
theorem firm_quotedPath : Firm front back quotedPath i := by
  refine Cuts.map (cuts_token_alt hi (firm_enclosed hi rfl _) (firm_enclosed hi rfl _) ?_) _
  intro v n v' n' hok _ hother _
  have hends : Ends (front ++ back) ['"'] i := ends_of_read _ hok (le_append hi) rfl fun c hc => by
    simpa [begins, Shape.enclosed] using hc
  cases hother.symm.trans (hends.eq_miss (le_append hi) (by decide))

theorem firm_fromClause : Firm front back fromClause i := by
  refine Cuts.skip_shut hi (Firm.skip_ws hi ?_) (by decide) fun n _ _ hn => firm_quotedPath hn
  exact Cuts.skip_shut hi (cuts_ws hi) (by decide) fun n _ _ hn => firm_word ht hn (by decide)

theorem firm_listImport {f : List String → String → Node} (hp : Firm front back p i) :
    Firm front back (f <$> (p *> ws *> nameList) <*> fromClause) i := by
  refine Firm.seq hi (Cuts.map ?_ _) fun n _ _ hn => firm_fromClause ht hn
  exact Cuts.skip_shut hi (Firm.skip_ws hi hp) (by decide) fun n _ _ hn => firm_nameList ht hn

theorem firm_namespaceImport : Firm front back namespaceImport i := by
  refine Firm.seq hi (Cuts.map ?_ _) fun n _ _ hn => firm_fromClause ht hn
  refine Cuts.skip_shut hi (H := []) ?_ (by decide) fun n _ _ hn => firm_identifier ht hn
  refine Firm.skip hi ?_ fun n _ _ hn => cuts_ws1 hn
  exact Cuts.skip_shut hi (Firm.skip_ws hi (firm_lit hi _)) (by decide)
    fun n _ _ hn => firm_word ht hn (by decide)

theorem firm_nodeImport : Firm front back nodeImport i :=
  firm_listImport ht hi (firm_words ht hi (by decide) (by decide))

theorem firm_toolImport : Firm front back toolImport i :=
  firm_listImport ht hi (firm_words ht hi (by decide) (by decide))

theorem firm_namedImport : Firm front back namedImport i :=
  Firm.seq hi (Cuts.map (firm_nameList ht hi) _) fun _ _ _ hn => firm_fromClause ht hn

theorem firm_defaultImport : Firm front back defaultImport i :=
  Firm.seq hi (Cuts.map (firm_identifier ht hi) _) fun _ _ _ hn => firm_fromClause ht hn

theorem cuts_importHead : Cuts front back (Ends front []) (word "import" *> ws : Parser String) i :=
  Firm.skip_ws hi (firm_word ht hi (by decide))

theorem agrees_importStatement : Agrees front back importStatement i := by
  refine Mirrors.commit hi (cuts_importHead ht hi).agrees fun n _ _ hn => (Mirrors.choice ?_).keeps
  simp only [forall_mem_cons, not_mem_nil, false_imp_iff, implies_true, and_true]
  exact ⟨(firm_nodeImport ht hn).agrees, (firm_toolImport ht hn).agrees,
    (firm_namedImport ht hn).agrees, (firm_namespaceImport ht hn).agrees,
    (firm_defaultImport ht hn).agrees⟩

end AgentLang.Grammar
