import AgentLang.Proofs.Grammar.InsertLexeme

/-!
# Inserting semicolons: text over several lines

A text between marks of three quotes may go over the place where semicolons are inserted. Then it
goes over this place without the semicolons, too, because a semicolon is text like any other.
-/

namespace AgentLang.Grammar

open List
open Verdict
open Parse (Pattern)
open Parse.Parser (lit)

variable {front back text : List Char} {i j k m n : Nat} {item : Pattern} {name : String}

/-! ### Pieces of text as one token -/

namespace Shape

/-- An interpolated name. -/
def hole : Pattern :=
  .lit "$\x7b" ++ .star (among " \t") ++ identifier ++ .star (among " \t") ++ .lit "\x7d"

/-- One character of a text over several lines, as it is written. -/
def multilineItem : Pattern :=
  except "\"\\$" <|> (.lit "\\" ++ any) <|> (.lit "\"" ++ .unless "\"\"".toList) <|> dollar

/-- One character or one interpolated name. -/
def piece : Pattern :=
  hole <|> multilineItem

end Shape

theorem spans_token_lit_iff {literal : String} (hi : i ≤ text.length) :
    Spans text (.token (.lit literal) name) i n ↔ Spans text (lit literal) i n := by
  refine ⟨spans_token_lit hi, ?_⟩
  rintro ⟨v, h⟩
  exact ⟨v, (read_token_exactly hi).trans ((read_text hi _ _).trans ((read_text hi _ _).symm.trans h))⟩

theorem spans_token_then (hi : i ≤ text.length)
    (hfirst : ∀ m, Spans text (.token first name) i m ↔ Spans text p i m)
    (hsecond : ∀ m, m ≤ text.length → ∀ n, Spans text (.token second name) m n ↔ Spans text q m n) :
    Spans text (.token (first ++ second) name) i n ↔ ∃ m, Spans text p i m ∧ Spans text q m n := by
  rw [spans_token_seq hi]
  refine exists_congr fun m => ?_
  rw [hfirst m]
  exact and_congr_right fun hp => hsecond m (hp.inside hi) n

theorem spans_hole (hi : i ≤ text.length) :
    Spans text (.token Shape.hole name) i n ↔ Spans text interpolation i n := by
  have hname : ∀ {shape : Pattern} {name'} m, m ≤ text.length → ∀ n,
      Spans text (.token shape name) m n ↔ Spans text (.token shape name') m n :=
    fun m hm n => ⟨spans_token_name hm, spans_token_name hm⟩
  rw [interpolation, spans_fmap, spans_keep]
  refine spans_token_then hi (fun m => ?_) fun m hm n => spans_token_lit_iff hm
  rw [spans_keep]
  refine spans_token_then hi (fun m => ?_) hname
  rw [spans_skip]
  refine spans_token_then hi (fun m => ?_) hname
  rw [spans_skip]
  exact spans_token_then hi (fun m => spans_token_lit_iff hi) hname

theorem spans_star (hi : i ≤ text.length) :
    Spans text (.token (.star item) name) i n ↔ Spans text (.many (.token item name)) i n := by
  rw [← spans_fmap (f := joined), Spans, Spans]
  exact iff_of_eq (congrArg (fun v => ∃ u, v = Verdict.ok u n) (read_token_star hi))

/-- What the items of a text must be for its pieces to be one token. -/
structure Flat (text : List Char) (item : Pattern) : Prop where
  moves : item.nullable = false
  /-- An interpolation is no text. -/
  opens : ∀ j m, j ≤ text.length → Spans text interpolation j m →
    read text (.token item "text") j = .miss

namespace Flat

theorem segments_iff (h : Flat text item) (hi : i ≤ text.length)
    (hitem : Spans text (.token item "text") i m) :
    Spans text (segments (.plus item)) i n ↔ Spans text (segments (.plus item)) m n := by
  -- All characters up to the next interpolation are one segment, from wherever it is read.
  have hstep : ∀ {j m e}, j ≤ text.length → Spans text (.token item "text") j m →
      Spans text (.token (.star item) "text") m e →
      (Spans text (segments (.plus item)) j n ↔ Spans text (segments (.plus item)) e n) := by
    intro j m e hj hitem hothers
    have hplus : Spans text (.token (.plus item) "text") j e := (spans_token_seq hj).mpr ⟨m, hitem, hothers⟩
    have hmiss : read text interpolation j = .miss := by
      by_contra hne
      obtain ⟨_, hspans⟩ := spans_of_ne_miss rfl hne
      exact hitem.ne_miss (h.opens j _ hj hspans)
    have hm := hitem.bounds hj
    have he := (hothers.bounds hm.2.1).1
    have hlt := hm.2.2 h.moves
    refine Spans.many_iff (spans_choice_cons.mpr (.inr ⟨hmiss, spans_choice_cons.mpr (.inl ?_)⟩)) (by omega)
    exact spans_fmap.mpr hplus
  have hm := hitem.inside hi
  obtain ⟨e, hothers⟩ : ∃ e, Spans text (.token (.star item) "text") m e :=
    spans_of_ne_miss rfl (read_certain rfl hm)
  rw [hstep hi hitem hothers]
  by_cases hnext : read text (.token item "text") m = .miss
  · obtain rfl := ((spans_star hm).mp hothers).many_of_miss hnext
    rfl
  · obtain ⟨m', hnext⟩ := spans_of_ne_miss rfl hnext
    have hm' := hnext.bounds hm
    have hlt := hm'.2.2 h.moves
    have hothers' := (hnext.many_iff (by omega)).mp ((spans_star hm).mp hothers)
    rw [hstep hm hnext ((spans_star hm'.2.1).mpr hothers')]

theorem spans_segments (h : Flat text item) (hi : i ≤ text.length) :
    Spans text (segments (.plus item)) i n ↔
      Spans text (.many (.token (Shape.hole <|> item) "text")) i n := by
  induction hleft : text.length - i using Nat.strongRecOn generalizing i with
  | ind left ih =>
    have halt : read text (.token (Shape.hole <|> item) "text") i = _ := read_token_alt hi
    rw [read_alt] at halt
    by_cases hopens : read text interpolation i = .miss
    · have hhole : read text (.token Shape.hole "text") i = .miss := by
        by_contra hne
        obtain ⟨_, hspans⟩ := spans_of_ne_miss rfl hne
        exact ((spans_hole hi).mp hspans).ne_miss hopens
      rw [hhole, miss_orElse] at halt
      by_cases hitem : read text (.token item "text") i = .miss
      · have hsegment : read text (Parse.Parser.choice [interpolation,
            Segment.text <$> Parse.Parser.token (.plus item) "text"]) i = .miss := by
          have hplus : read text (.token (.plus item) "text") i = .miss := (read_plus_eq_miss hi).mpr hitem
          simp only [read_choice_cons, read_choice_nil, hopens, read_fmap, hplus]
          rfl
        rw [hitem] at halt
        have hnone : ∀ {α : Type} {p : Parser α}, read text p i = .miss →
            (Spans text (.many p) i n ↔ n = i) := by
          intro α p hmiss
          refine ⟨fun hmany => hmany.many_of_miss hmiss, ?_⟩
          rintro rfl
          exact ⟨[], by rw [read_many, hmiss]⟩
        exact (hnone hsegment).trans (hnone halt).symm
      · obtain ⟨m, v, hitem⟩ := spans_of_ne_miss rfl hitem
        have hm := read_bounds hitem hi
        have hlt := hm.2.2 h.moves
        rw [h.segments_iff hi ⟨v, hitem⟩, ih _ (by omega) hm.2.1 rfl]
        exact (Spans.many_iff ⟨v, halt.trans hitem⟩ (by omega)).symm
    · obtain ⟨m, hopens⟩ := spans_of_ne_miss rfl hopens
      obtain ⟨v, hhole⟩ : Spans text (.token Shape.hole "text") i m := (spans_hole hi).mpr hopens
      have hm := read_bounds hhole hi
      have hlt := hm.2.2 rfl
      have hsegment : Spans text (.choice [interpolation,
          Segment.text <$> Parse.Parser.token (.plus item) "text"]) i m :=
        spans_choice_cons.mpr (.inl hopens)
      rw [segments, hsegment.many_iff (by omega), ← segments, ih _ (by omega) hm.2.1 rfl]
      refine (Spans.many_iff ⟨v, halt.trans ?_⟩ (by omega)).symm
      rw [hhole]
      rfl

end Flat

theorem flat_multiline : Flat text Shape.multilineItem where
  moves := rfl
  opens j m hj hspans := by
    obtain ⟨v, hread⟩ := hspans
    have ht : Tight text [] := fun _ _ _ hb => by cases hb
    have hpieces : Piecewise text [] Shape.multilineItem := (marks_quote ht).piecewise (by decide)
    have hmiss := hpieces.opens j hj
    rw [append_nil] at hmiss
    exact hmiss (prefix_of_interpolation hj hread)

/-! ### Pieces on both sides of the place -/

/-- How far the pieces at the head of a text go. -/
def stretch (rest : List Char) : Nat :=
  Pattern.repeated Shape.piece.match? rest 0

theorem stretch_stop (hc : c ∈ stops) : stretch (c :: rest) = 1 + stretch rest := by
  have hpiece : Shape.piece.match? (c :: rest) = some 1 := by
    simp only [stops, mem_cons, not_mem_nil, or_false] at hc
    rcases hc with rfl | rfl | rfl | rfl | rfl | rfl | rfl <;> rfl
  rw [stretch, Pattern.repeated, hpiece, Nat.add_comm]
  rfl

theorem stretch_escape : stretch ('\\' :: c :: rest) = 2 + stretch rest := by
  have hpiece : Shape.piece.match? ('\\' :: c :: rest) = some 2 := rfl
  rw [stretch, Pattern.repeated, hpiece, Nat.add_comm]
  rfl

theorem stretch_semicolons : stretch (List.replicate k ';' ++ rest) = k + stretch rest := by
  induction k with
  | zero => rw [replicate_zero, nil_append, Nat.zero_add]
  | succ k ih => rw [replicate_succ, cons_append, stretch_stop (by decide), ih]; omega

theorem pieces_spans (hi : i ≤ text.length) :
    Spans text (.many (.token Shape.piece name)) i (i + stretch (text.drop i)) := by
  rw [← spans_star hi]
  exact ⟨_, read_token hi _ _⟩

theorem piece_same (ht : Tight front back) (hi : i ≤ front.length)
    (h : Spans (front ++ ';' :: rest) (.token Shape.piece "text") i m) (hm : m ≤ front.length) :
    Spans (front ++ back) (.token Shape.piece "text") i m := by
  have halt : ∀ {back : List Char}, read (front ++ back) (.token Shape.piece "text") i = _ :=
    fun {_} => read_token_alt (le_append hi)
  rw [Spans, halt, read_alt] at h ⊢
  obtain ⟨v, h⟩ := h
  rcases orElse_eq_ok.mp h with hhole | ⟨-, hitem⟩
  · obtain ⟨u, hopens⟩ := (spans_hole (le_append hi)).mp ⟨v, hhole⟩
    have hfront := (firm_interpolation tight_semicolon hi).eq_ok hopens hm
    obtain ⟨w, hhole'⟩ : Spans (front ++ back) (.token Shape.hole "text") i m :=
      (spans_hole (le_append hi)).mpr (Spans.whole ⟨u, hfront⟩ (firm_interpolation ht hi) rfl)
    exact ⟨w, orElse_eq_ok.mpr (.inl hhole')⟩
  · have hpieces : ∀ {back : List Char}, Tight front back →
        Piecewise front back Shape.multilineItem := fun ht => (marks_quote ht).piecewise (by decide)
    have hfront := ((hpieces tight_semicolon).firm i hi).eq_ok hitem hm
    obtain ⟨w, hitem'⟩ := Spans.whole ⟨v, hfront⟩ ((hpieces ht).firm i hi) rfl
    refine ⟨w, orElse_eq_ok.mpr (.inr ⟨?_, hitem'⟩)⟩
    by_contra hne
    obtain ⟨_, hhole⟩ := spans_of_ne_miss rfl hne
    have hmiss := flat_multiline.opens i _ (le_append hi) ((spans_hole (le_append hi)).mp hhole)
    cases hmiss.symm.trans hitem'

theorem piece_beyond (hi : i ≤ front.length)
    (h : Spans (front ++ ';' :: rest) (.token Shape.piece "text") i m) (hm : front.length < m)
    (hlt : i < front.length) : front.drop i = ['\\'] := by
  have halt : read (front ++ ';' :: rest) (.token Shape.piece "text") i = _ :=
    read_token_alt (le_append hi)
  obtain ⟨v, h⟩ := h
  rw [halt, read_alt] at h
  rcases orElse_eq_ok.mp h with hhole | ⟨-, hitem⟩
  · exact absurd (read_stays rfl hi hhole) (Nat.not_le_of_lt hm)
  · have hpieces : Piecewise front (';' :: rest) Shape.multilineItem :=
      (marks_quote tight_semicolon).piecewise (by decide)
    have hends := hpieces.beyond i v m hi hitem hm
    cases hrest : front.drop i with
    | nil => exact absurd (drop_eq_nil_iff.mp hrest) (Nat.not_le_of_lt hlt)
    | cons c others =>
      obtain rfl : c = '\\' := List.mem_singleton.mp (hends c (by rw [hrest]; rfl))
      have hlength := congrArg List.length hrest
      rw [length_drop, length_cons] at hlength
      cases others with
      | nil => rfl
      | cons d others =>
        rw [read_token (le_append hi), drop_whole hi, hrest] at hitem
        have hmatch : Shape.multilineItem.match? ('\\' :: d :: others ++ ';' :: rest) = some 2 := rfl
        rw [hmatch] at hitem
        cases hitem
        rw [length_cons] at hlength
        omega

/-- Pieces that go over the semicolons to three quotes go there without the semicolons. -/
theorem pieces_without (hback : ∀ c, back.head? = some c → c ∈ stops) (hi : i ≤ front.length)
    (h : Spans (front ++ ';' :: (List.replicate k ';' ++ back)) (.many (.token Shape.piece "text"))
      i n)
    (hn : front.length < n)
    (hquotes : "\"\"\"".toList.isPrefixOf
      ((front ++ ';' :: (List.replicate k ';' ++ back)).drop n) = true) :
    ∃ n', Spans (front ++ back) (.many (.token Shape.piece "text")) i n' ∧
      "\"\"\"".toList.isPrefixOf ((front ++ back).drop n') = true := by
  have ht : Tight front back := fun _ b _ hb => .inr (hback b hb)
  have hbehind : ∀ r, (front ++ ';' :: (List.replicate k ';' ++ back)).drop
      (front.length + (1 + (k + r))) = back.drop r := by
    intro r
    rw [drop_length_add_append, Nat.add_comm 1, drop_succ_cons]
    nth_rewrite 1 [← length_replicate (n := k) (a := ';')]
    exact drop_length_add_append _
  induction hleft : front.length - i using Nat.strongRecOn generalizing i with
  | ind left ih =>
    rcases Nat.lt_or_ge i front.length with hlt | hge
    · by_cases hmiss : read (front ++ ';' :: (List.replicate k ';' ++ back))
          (.token Shape.piece "text") i = .miss
      · have := h.many_of_miss hmiss
        omega
      · obtain ⟨m, hpiece⟩ := spans_of_ne_miss rfl hmiss
        have hmoves := (hpiece.bounds (le_append hi)).2.2 rfl
        rcases Nat.lt_or_ge front.length m with hm | hm
        · -- The escape takes a semicolon in the one text and what stands behind it in the other.
          have hescape := piece_beyond hi hpiece hm hlt
          have hlength := congrArg List.length hescape
          rw [length_drop, length_singleton] at hlength
          have hend := h.unique (pieces_spans (le_append hi))
          rw [drop_whole hi, hescape, singleton_append, stretch_escape, stretch_semicolons] at hend
          rw [show n = front.length + (1 + (k + stretch back)) by omega, hbehind] at hquotes
          have hspans : Spans (front ++ back) (.many (.token Shape.piece "text")) i _ :=
            pieces_spans (le_append hi)
          rw [drop_whole hi, hescape, singleton_append] at hspans
          cases back with
          | nil => cases hquotes
          | cons c others =>
            rw [stretch_escape, show i + (2 + stretch others) =
              front.length + (1 + stretch others) by omega] at hspans
            refine ⟨_, hspans, ?_⟩
            rw [stretch_stop (hback c rfl)] at hquotes
            rw [drop_length_add_append]
            exact hquotes
        · obtain ⟨n', hrest, hquotes'⟩ := ih _ (by omega) hm ((hpiece.many_iff (by omega)).mp h) rfl
          exact ⟨n', ((piece_same ht hi hpiece hm).many_iff (by omega)).mpr hrest, hquotes'⟩
    · obtain rfl : i = front.length := Nat.le_antisymm hi hge
      have hend := h.unique (pieces_spans (le_append hi))
      rw [drop_left, stretch_stop (by decide), stretch_semicolons] at hend
      rw [hend, hbehind] at hquotes
      have hspans : Spans (front ++ back) (.many (.token Shape.piece "text")) front.length _ :=
        pieces_spans (le_append hi)
      rw [drop_left] at hspans
      refine ⟨_, hspans, ?_⟩
      rw [drop_length_add_append]
      exact hquotes

theorem multiline_misses (hback : ∀ c, back.head? = some c → c ∈ stops) (hi : i ≤ front.length)
    (h : read (front ++ back) multilineString i = .miss) :
    read (front ++ ';' :: (List.replicate k ';' ++ back)) multilineString i = .miss := by
  have ht : Tight front back := fun _ b _ hb => .inr (hback b hb)
  by_contra hne
  obtain ⟨e, hspans, he⟩ := (firm_multilineString ht hi).beyond
    (firm_multilineString tight_semicolon hi) rfl h hne
  simp only [multilineString, quoted, Parse.Parser.between, spans_fmap, spans_keep,
    spans_skip] at hspans
  obtain ⟨n, ⟨m, ⟨u, hopen⟩, hsegments⟩, ⟨v, hclose⟩⟩ := hspans
  have hm := read_stays rfl hi hopen
  have hm' := hsegments.inside (le_append hm)
  have hn : front.length < n := by
    by_contra hle
    exact absurd (read_stays rfl (Nat.le_of_not_lt hle) hclose) (Nat.not_le_of_lt he)
  obtain ⟨n', hpieces, hquotes⟩ := pieces_without hback hm
    ((flat_multiline.spans_segments (le_append hm)).mp hsegments) hn (read_text_ok hm' hclose).1
  have hn' := hpieces.inside (le_append hm)
  have hopen' : Spans (front ++ back) (lit "\"\"\"") i m :=
    Spans.whole ⟨u, (firm_lit hi _).eq_ok hopen hm⟩ (firm_lit hi _) rfl
  have hclose' : Spans (front ++ back)
      (Parse.Parser.named "\"\"\"" ("closing '" ++ "\"\"\"" ++ "'")) n' (n' + 3) :=
    ⟨_, (read_text hn' _ _).trans (if_pos hquotes)⟩
  refine Spans.ne_miss (n := n' + 3) ?_ h
  simp only [multilineString, quoted, Parse.Parser.between, spans_fmap, spans_keep, spans_skip]
  exact ⟨n', ⟨m, hopen', (flat_multiline.spans_segments (le_append hm)).mpr hpieces⟩, hclose'⟩

/-! ### Text up to a mark -/

theorem upToEndOf?_ne_none {literal : List Char} :
    Pattern.upToEndOf? literal rest ≠ none ↔ literal <:+: rest := by
  induction rest with
  | nil => simp [Pattern.upToEndOf?]
  | cons c rest ih =>
    rw [Pattern.upToEndOf?, infix_cons_iff, ← isPrefixOf_iff_prefix]
    split
    next hstarts => simp [hstarts]
    next hnot =>
      rw [Ne, Option.map_eq_none_iff, ← Ne, ih]
      simp [hnot]

theorem prefix_before {literal : List Char} (before : List Char) (hc : c ∉ literal)
    (h : literal <+: before ++ c :: rest) : literal <+: before := by
  rcases Nat.le_total literal.length before.length with hle | hle
  · exact prefix_of_prefix_length_le h (prefix_append before _) hle
  · rcases Nat.lt_or_eq_of_le hle with hlt | heq
    · have hmark : before ++ [c] <+: literal := by
        refine prefix_of_prefix_length_le ⟨rest, by simp⟩ h ?_
        rw [length_append, length_singleton]
        omega
      exact absurd (hmark.subset (by simp)) hc
    · exact prefix_of_prefix_length_le h (prefix_append before _) (Nat.le_of_eq heq.symm)

theorem infix_without {literal : List Char} (hc : c ∉ literal)
    (h : literal <:+: before ++ c :: (List.replicate k c ++ back)) :
    literal <:+: before ++ back := by
  induction before with
  | nil =>
    have hreplicate : literal <:+: List.replicate (k + 1) c ++ back := h
    generalize k + 1 = count at hreplicate
    induction count with
    | zero => exact hreplicate
    | succ count ih =>
      rw [replicate_succ, cons_append, infix_cons_iff] at hreplicate
      rcases hreplicate with hstarts | hrest
      · obtain rfl := prefix_nil.mp (prefix_before [] hc hstarts)
        exact nil_infix
      · exact ih hrest
  | cons d before ih =>
    rw [cons_append, infix_cons_iff] at h ⊢
    rcases h with hstarts | hrest
    · exact .inl ((prefix_before (d :: before) hc hstarts).trans
        (prefix_append (d :: before) back))
    · exact .inr (ih hrest)

/-- A mark is found behind another one only where it is found without the semicolons. -/
theorem through_misses {literal : String} (hmark : ';' ∉ mark.toList)
    (hliteral : ';' ∉ literal.toList) (hi : i ≤ front.length)
    (h : read (front ++ back) (.token (.lit mark ++ .through literal.toList) name) i = .miss) :
    read (front ++ ';' :: (List.replicate k ';' ++ back))
      (.token (.lit mark ++ .through literal.toList) name) i = .miss := by
  by_contra hne
  obtain ⟨e, hspans⟩ := spans_of_ne_miss rfl hne
  obtain ⟨m, ⟨u, hopen⟩, ⟨v, hthrough⟩⟩ := (spans_token_seq (le_append hi)).mp hspans
  have hspares : (Parse.Parser.token (.lit mark) name : Parser String).spares ';' = true := by
    simpa [Parse.Parser.spares, Pattern.spares, Pattern.lit] using hmark
  have hm := read_stays hspares hi hopen
  have hfirm : Firm front back (.token (.lit mark) name) i := firm_exactly hi
  have hopen' : Spans (front ++ back) (.token (.lit mark) name) i m :=
    Spans.whole ⟨u, (firm_exactly hi).eq_ok hopen hm⟩ hfirm rfl
  have hfound : literal.toList <:+: (front ++ back).drop m := by
    rw [drop_whole hm]
    refine infix_without (c := ';') (k := k) hliteral ?_
    rw [← drop_whole hm, ← upToEndOf?_ne_none]
    intro hnone
    have hread := (read_token (le_append hm) _ _).symm.trans hthrough
    rw [Pattern.match?, hnone] at hread
    cases hread
  refine absurd h (Spans.ne_miss (n := m + ((Pattern.upToEndOf? literal.toList
    ((front ++ back).drop m)).getD 0)) ?_)
  refine (spans_token_seq (le_append hi)).mpr ⟨m, hopen', ?_⟩
  rw [Spans, read_token (le_append hm), Pattern.match?]
  cases hend : Pattern.upToEndOf? literal.toList ((front ++ back).drop m) with
  | none => exact absurd hend (upToEndOf?_ne_none.mpr hfound)
  | some taken => exact ⟨_, rfl⟩

/-! ### The place of the semicolons -/

/-- What goes over several lines and over the place with the semicolon also does so without. -/
structure Inserted (front back rest : List Char) : Prop where
  tight : Tight front back
  noMultiline : ∀ i, i ≤ front.length → read (front ++ back) multilineString i = .miss →
    read (front ++ ';' :: rest) multilineString i = .miss
  noDocString : ∀ i, i ≤ front.length → read (front ++ back) docString i = .miss →
    read (front ++ ';' :: rest) docString i = .miss
  noBlockComment : ∀ i, i ≤ front.length → read (front ++ back) blockComment i = .miss →
    read (front ++ ';' :: rest) blockComment i = .miss

theorem inserted_semicolons (hback : ∀ c, back.head? = some c → c ∈ stops) :
    Inserted front back (List.replicate k ';' ++ back) where
  tight _ b _ hb := .inr (hback b hb)
  noMultiline _ hi h := multiline_misses hback hi h
  noDocString i hi h := by
    rw [docString, read_fmap, map_eq_miss] at h ⊢
    exact through_misses (by decide) (by decide) hi h
  noBlockComment i hi h := by
    rw [blockComment, read_fmap, map_eq_miss] at h ⊢
    exact through_misses (by decide) (by decide) hi h

section

variable {α : Type} {rest : List Char} {K : Nat → Prop} {p : Parser α}

theorem Inserted.keeps (h : Inserted front back rest)
    (hp : ∀ {tail : List Char}, Tight front tail → Firm front tail p i)
    (hopen : harmless p = true) : Stable front back rest p i :=
  (hp h.tight).persists (hp tight_semicolon) hopen

theorem Inserted.inert (h : Inserted front back rest) (hi : i ≤ front.length)
    (hp : ∀ {tail : List Char}, Tight front tail → Cuts front tail K p i)
    (hopen : harmless p = true) (hspares : p.spares ';' = true) : Inert front back rest p i :=
  inert_of_cuts hi (hp h.tight) (hp tight_semicolon) hopen hspares

theorem Inserted.beyond (h : Inserted front back rest)
    (hp : ∀ {tail : List Char}, Tight front tail → Cuts front tail K p i)
    (hopen : harmless p = true) (hmiss : read (front ++ back) p i = .miss)
    (hne : read (front ++ ';' :: rest) p i ≠ .miss) :
    ∃ n, Spans (front ++ ';' :: rest) p i n ∧ front.length < n :=
  (hp h.tight).beyond (hp tight_semicolon) hopen hmiss hne

end

end AgentLang.Grammar
