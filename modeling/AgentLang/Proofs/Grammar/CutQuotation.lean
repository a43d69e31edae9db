import AgentLang.Proofs.Grammar.CutLexeme

/-!
# Cutting strings and prompts

Text between marks ends early only at the end of the beginning, at a backslash or at a dollar sign,
and never before the closing mark.
-/

namespace AgentLang.Grammar

open Verdict
open Parse (Pattern)
open Parse.Parser (lit)

variable {α : Type} {front back : List Char} {K : Nat → Prop} {i n : Nat}

theorem Cuts.last (h : Cuts front back K p i) : Cuts front back K (Parse.Parser.choice [p]) i :=
  Cuts.alt h Cuts.fail (read_ne_dead rfl) fun _ _ _ _ _ _ hfail _ =>
    nomatch hfail.symm.trans read_fail

variable (ht : Tight front back) (hi : i ≤ front.length)
include ht hi

theorem firm_interpolation : Firm front back interpolation i := by
  refine Cuts.map (Cuts.keep_lit hi (Firm.keep_ws hi ?_) (by decide)) _
  exact Cuts.skip_shut hi (Firm.skip_ws hi (firm_lit hi _)) (by decide)
    fun n _ _ hn => firm_identifier ht hn

/-- What the pieces of a text must be for the text to be cut well. -/
structure Piecewise (front back : List Char) (item : Pattern) : Prop where
  moves : item.nullable = false
  firm : ∀ j, j ≤ front.length → Firm front back (.token item "text") j
  /-- Only an escape is cut in its middle. -/
  beyond : ∀ j v n, j ≤ front.length → read (front ++ back) (.token item "text") j = .ok v n →
    front.length < n → Ends front ['\\'] j
  /-- An interpolation is no text. -/
  opens : ∀ j, j ≤ front.length → "$\x7b".toList.isPrefixOf ((front ++ back).drop j) = true →
    read (front ++ back) (.token item "text") j = .miss

omit ht hi

variable {item : Pattern}

theorem Piecewise.cuts_plus (h : Piecewise front back item) (hi : i ≤ front.length) :
    Cuts front back (fun n => Ends front ['\\'] n ∧ read front (.token item "text") n = .miss)
      (.token (.plus item) "text") i := by
  refine cuts_token_plus hi (h.firm i hi) (fun n _ hn => ?_) (fun _ _ => False.elim)
  refine Cuts.many hn h.moves (fun j _ hj => h.firm j hj) ?_ (fun _ _ => False.elim)
  intro j v m _ hj hok hm hmiss
  exact ⟨h.beyond j v m hj hok hm, hmiss⟩

theorem read_item_of_plus (hi : i ≤ text.length)
    (h : read text (.token (.plus item) name) i = .ok v n) :
    ∃ u m, read text (.token item name) i = .ok u m := by
  have hseq := (read_token_seq hi).symm.trans h
  rw [read_seq, read_map] at hseq
  obtain ⟨f, m, hfirst, -⟩ := bind_eq_ok.mp hseq
  obtain ⟨u, hfirst, -⟩ := map_eq_ok.mp hfirst
  exact ⟨u, m, hfirst⟩

theorem read_plus_eq_miss (hi : i ≤ text.length) :
    read text (.token (.plus item) name) i = .miss ↔ read text (.token item name) i = .miss := by
  have hseq : read text (.token (.plus item) name) i = _ := read_token_seq hi
  rw [hseq, read_seq, read_map, bind_eq_miss, map_eq_miss]
  refine or_iff_left ?_
  rintro ⟨f, m, hfirst, hrest⟩
  obtain ⟨u, hfirst, -⟩ := map_eq_ok.mp hfirst
  exact read_certain (p := .token (.star item) name) rfl (read_bounds hfirst hi).2.1
    (map_eq_miss.mp hrest)

theorem prefix_of_interpolation (hi : i ≤ text.length) (h : read text interpolation i = .ok v n) :
    "$\x7b".toList.isPrefixOf (text.drop i) = true := by
  simp only [interpolation, read_fmap, read_keep, read_skip, map_eq_ok, bind_eq_ok] at h
  obtain ⟨-, ⟨-, -, ⟨-, -, ⟨-, -, ⟨u, m, hlit, -⟩, -⟩, -⟩, -⟩, -⟩ := h
  exact (read_text_ok hi hlit).1

theorem cuts_segments (ht : Tight front back) (h : Piecewise front back item)
    (hi : i ≤ front.length) :
    Cuts front back (Ends front ['$', '\\']) (segments (.plus item)) i := by
  have hopen : ∀ {text : List Char} {j}, read text (Parse.Parser.choice
      [Segment.text <$> Parse.Parser.token (.plus item) "text"]) j ≠ .dead :=
    read_ne_dead rfl
  have hstep : ∀ j, i ≤ j → j ≤ front.length →
      Cuts front back (fun n => Ends front ['\\'] n ∧ read front (.token item "text") n = .miss)
        (Parse.Parser.choice [interpolation, .text <$> Parse.Parser.token (.plus item) "text"]) j := by
    intro j _ hj
    refine Cuts.alt (firm_interpolation ht hj).cuts (Cuts.last (Cuts.map (h.cuts_plus hj) _)) hopen ?_
    intro v n v' n' hopens _ hok _
    have hmiss := h.opens j hj (prefix_of_interpolation (le_append hj) hopens)
    have hnone : read (front ++ back) (.token (.plus item) "text") j = .miss :=
      (read_plus_eq_miss (le_append hj)).mpr hmiss
    have hlast : read (front ++ back) (Parse.Parser.choice
        [Segment.text <$> Parse.Parser.token (.plus item) "text"]) j = .miss := by
      rw [read_choice_cons, read_fmap, hnone, read_choice_nil]
      rfl
    cases hok.symm.trans hlast
  refine Cuts.many hi ?_ hstep ?_ ?_
  · change (false || (item.nullable && true || false)) = false
    rw [h.moves]
    rfl
  · intro j v m _ hj hok hm hmiss
    rw [read_choice_cons, orElse_eq_ok] at hok
    rw [read_choice_cons, orElse_eq_miss, read_choice_cons, orElse_eq_miss, read_fmap,
      map_eq_miss, read_plus_eq_miss hj] at hmiss
    rcases hok with hok | ⟨-, hok⟩
    · refine Ends.of_whole (ends_of_read _ hok (le_append hj) rfl fun c hc => ?_)
      have hdollar : c = '$' := by simpa [begins, interpolation] using hc
      exact hdollar ▸ List.mem_cons_self
    · have hitem : ∃ u m, read (front ++ back) (.token item "text") j = .ok u m := by
        rw [read_choice_cons, orElse_eq_ok, read_fmap, map_eq_ok] at hok
        rcases hok with ⟨u, hok, -⟩ | ⟨-, hok⟩
        · exact read_item_of_plus (le_append hj) hok
        · cases hok.symm.trans read_choice_nil
      obtain ⟨u, m', hitem⟩ := hitem
      have hbeyond : front.length < m' := by
        by_contra hle
        have := (h.firm j hj).eq_ok hitem (Nat.le_of_not_lt hle)
        cases this.symm.trans hmiss.2.1
      exact (h.beyond j u m' hj hitem hbeyond).mono (by simp)
  · rintro j hj ⟨hends, hmiss⟩
    refine ⟨?_, hends.mono (by simp)⟩
    rw [read_choice_cons, orElse_eq_miss, read_choice_cons, orElse_eq_miss, read_fmap,
      map_eq_miss, read_plus_eq_miss hj]
    exact ⟨hends.eq_miss hj (by decide), hmiss, read_choice_nil⟩

theorem firm_quoted (ht : Tight front back) (h : Piecewise front back item) (hi : i ≤ front.length)
    (hmark : shut ['$', '\\'] (Parse.Parser.named mark ("closing '" ++ mark ++ "'") : Parser
      String)) :
    Firm front back (quoted mark (.plus item)) i := by
  refine Cuts.keep hi (L := Ends front ['$', '\\']) ?_ (fun n _ _ hn => firm_text hn _ _)
    (fun n hn hends => hends.closes hn hmark)
  exact Firm.skip hi (firm_lit hi mark) fun n _ _ hn => cuts_segments ht h hn

/-! ### The three kinds of text -/

/-- Marks of a text that consist of one character and what must not follow it. -/
structure Marks (front back : List Char) (marks : Pattern) : Prop where
  moves : marks.nullable = false
  firm : ∀ j, j ≤ front.length → Firm front back (.token marks "text") j
  single : ∀ j v n, j ≤ front.length → read (front ++ back) (.token marks "text") j = .ok v n →
    n = j + 1
  unescaped : shut ['\\'] (.token marks "text" : Parser String) = true
  opens : ∀ j, j ≤ front.length → "$\x7b".toList.isPrefixOf ((front ++ back).drop j) = true →
    read (front ++ back) (.token marks "text") j = .miss

theorem Marks.piecewise (h : Marks front back marks) (hplain : plain '$' = false) :
    Piecewise front back (.one plain <|> (.lit "\\" ++ .one escaped) <|> marks) where
  moves := by
    change (false || (false || marks.nullable)) = false
    rw [h.moves]
    rfl
  firm j hj := by
    have hescape : Firm front back (.token (.lit "\\" ++ .one escaped) "text") j :=
      cuts_token_seq hj (firm_exactly hj) (fun n _ hn => firm_one hn escaped _)
        (fun _ _ => False.elim)
    refine cuts_token_alt hj (firm_one hj plain _) (cuts_token_alt hj hescape (h.firm j hj) ?_) ?_
    · intro v n v' n' hok _ hmark _
      have hends := ends_of_read ['\\'] hok (le_append hj) rfl (by
        intro c hc
        simpa [begins] using hc)
      cases hmark.symm.trans (hends.eq_miss (le_append hj) h.unescaped)
    · intro v n v' n' hok hn hother hn'
      have hone := read_one_ok (le_append hj) hok
      have hmoves : (Pattern.lit "\\" ++ .one escaped <|> marks).nullable = false := h.moves
      have hlt := (read_bounds hother (le_append hj)).2.2 hmoves
      omega
  beyond j v n hj hok hn := by
    have hcases := (read_token_alt (le_append hj)).symm.trans hok
    rw [read_alt, orElse_eq_ok] at hcases
    rcases hcases with hone | ⟨-, hcases⟩
    · have := read_one_ok (le_append hj) hone
      exact ends_of_le (by omega)
    · have hcases := (read_token_alt (le_append hj)).symm.trans hcases
      rw [read_alt, orElse_eq_ok] at hcases
      rcases hcases with hescape | ⟨-, hmark⟩
      · exact (ends_of_starts (prefix_of_token (le_append hj) hescape)).of_whole
      · have := h.single j v n hj hmark
        exact ends_of_le (by omega)
  opens j hj hstarts := by
    have hends : Ends (front ++ back) ['$'] j := ends_of_starts hstarts
    have hone : read (front ++ back) (.token (.one plain) "text") j = .miss :=
      hends.eq_miss (le_append hj) (by simp [shut, still, begins, Parse.Parser.nullable,
        Pattern.nullable, hplain])
    have hescape : read (front ++ back) (.token (.lit "\\" ++ .one escaped) "text") j = .miss :=
      hends.eq_miss (le_append hj) rfl
    have hother := (read_token_alt (le_append hj)).trans ((read_alt _ _).trans
      (orElse_eq_miss.mpr ⟨hescape, h.opens j hj hstarts⟩))
    exact (read_token_alt (le_append hj)).trans ((read_alt _ _).trans
      (orElse_eq_miss.mpr ⟨hone, hother⟩))

theorem marks_dollar (ht : Tight front back) : Marks front back Shape.dollar where
  moves := rfl
  firm j hj := firm_guarded ht hj (by decide) (by decide) _
  single j v n hj hok := read_guarded_ok (le_append hj) hok
  unescaped := by decide
  opens j hj hstarts := by
    obtain ⟨tail, htail⟩ := List.isPrefixOf_iff_prefix.mp hstarts
    refine (read_guarded (le_append hj)).trans (if_neg fun h => h.2 ?_)
    rw [← htail]
    rfl

/-- In a text over several lines, two more quotes must not follow a quote. -/
theorem marks_quote (ht : Tight front back) :
    Marks front back (.lit "\"" ++ .unless "\"\"".toList <|> Shape.dollar) where
  moves := rfl
  firm j hj := by
    refine cuts_token_alt hj (firm_guarded ht hj (by decide) (by decide) _)
      ((marks_dollar ht).firm j hj) ?_
    intro v n v' n' hok hn hdollar hn'
    have := read_guarded_ok (le_append hj) hok
    have := (marks_dollar ht).single j v' n' hj hdollar
    omega
  single j v n hj hok := by
    have hcases := (read_token_alt (le_append hj)).symm.trans hok
    rw [read_alt, orElse_eq_ok] at hcases
    rcases hcases with hquote | ⟨-, hdollar⟩
    · exact read_guarded_ok (le_append hj) hquote
    · exact (marks_dollar ht).single j v n hj hdollar
  unescaped := by decide
  opens j hj hstarts := by
    have hends : Ends (front ++ back) ['$'] j := ends_of_starts hstarts
    have hquote : read (front ++ back) (.token (.lit "\"" ++ .unless "\"\"".toList) "text") j =
        .miss := hends.eq_miss (le_append hj) rfl
    exact (read_token_alt (le_append hj)).trans ((read_alt _ _).trans
      (orElse_eq_miss.mpr ⟨hquote, (marks_dollar ht).opens j hj hstarts⟩))

include ht hi

theorem firm_stringSegments : Firm front back stringSegments i :=
  firm_quoted ht ((marks_dollar ht).piecewise (by decide)) hi (by decide)

theorem firm_stringLiteral : Firm front back stringLiteral i :=
  Cuts.map (firm_stringSegments ht hi) _

theorem firm_multilineString : Firm front back multilineString i :=
  Cuts.map (firm_quoted ht ((marks_quote ht).piecewise (by decide)) hi (by decide)) _

theorem firm_backtickPrompt : Firm front back backtickPrompt i :=
  Cuts.map (firm_quoted ht ((marks_dollar ht).piecewise (by decide)) hi (by decide)) _

theorem firm_truth : Firm front back truth i := by
  refine Cuts.map ?_ _
  exact Cuts.alt_of_heads ['t'] hi (firm_word ht hi (by decide))
    (Cuts.last (firm_word ht hi (by decide))) rfl
    (fun c hc => by simpa [begins] using hc) (by decide) rfl

end AgentLang.Grammar
