import AgentLang.Proofs.Grammar.InsertAssignment

/-!
# Inserting semicolons: selections

An arm of a selection ends at a mark or before the next arm, which may stand on the same line. So
what an arm does is compared with the arm behind it: where that one begins, neither a value goes on
nor does another statement begin.
-/

namespace AgentLang.Grammar

open Verdict
open Parse (Pattern)
open Parse.Parser (lit word)

variable {α : Type} {front back rest text : List Char} {i k m n : Nat}

/-! ### Cases -/

theorem access_literal (hi : i ≤ text.length) (haccess : Spans text access i m)
    (hliteral : Spans text literal i n) : Ends text steps n := by
  by_cases hcall : read text call i = .miss
  · have hmiss : read text callExpr i = .miss := by
      rw [callExpr, read_fmap, map_eq_miss]
      exact hcall
    exact (access_rest hi haccess (spans_choice_cons.mpr
      (.inr ⟨hmiss, spans_choice_cons.mpr (.inl hliteral)⟩))).mono (by decide)
  · obtain ⟨c, hcall⟩ := spans_of_ne_miss rfl hcall
    rcases call_literal hi hcall hliteral with rfl | hparen
    · exact (access_rest hi haccess (spans_choice_cons.mpr (.inl (spans_fmap.mpr hcall)))).mono
        (by decide)
    · exact hparen.mono (by decide)

variable (h : Inserted front back rest) (hi : i ≤ front.length)
include h hi

theorem Inserted.persists_caseValue : Persists front back rest (Leads front steps) caseValue i := by
  have hdefault : Inert front back rest defaultCase i :=
    h.inert hi (fun ht => firm_defaultCase ht hi) rfl rfl
  have hliteral : Persists front back rest (Leads front steps) (some <$> literal) i :=
    ((h.persists_literal hi).mono fun n _ hleads => hleads.mono (by decide)).map some
  refine Carries.alt hdefault.keeps.carries (Carries.alt ((h.persists_access hi).map some)
    hliteral.single fun n _ hne _ hother hn => ?_) fun n hmiss hne _ _ _ => ?_
  · obtain ⟨e, haccess⟩ := spans_of_ne_miss rfl hne
    have hother : Spans (front ++ ';' :: rest) (Parse.Parser.choice [some <$> literal]) i n := hother
    simp only [spans_choice_one, spans_fmap] at hother
    exact (access_literal (le_append hi) (spans_fmap.mp haccess) hother).leads hn (by decide)
  · exact absurd (hdefault.misses hmiss) hne

theorem Inserted.stable_armHead : Stable front back rest armHead i := by
  refine Keeps.keep hi ?_ fun n _ _ hn => (inert_ws hn).keeps
  refine Carries.keep (L := Leads front steps) hi ?_
    (fun n _ _ hn => (inert_lit hn (by decide)).keeps) fun m n _ hleads harrow _ =>
      hleads.clash harrow (by decide)
  refine Carries.keep hi ((h.persists_caseValue hi).map _)
    (fun n _ _ hn => (inert_ws hn).keeps.carries) fun m n hm hleads hws _ => ?_
  obtain rfl := hleads.ends.spans_eq (le_append hm) hws (by decide)
  exact hleads

omit h hi

theorem arm_spans (hi : i ≤ text.length) (h : Spans text arm i n) : ∃ m k e,
    Spans text caseValue i m ∧ Spans text ws m k ∧ Spans text (lit "=>") k e ∧ m ≤ n := by
  have h : Spans text (armHead <*> armBody <* armEnd) i n := h
  simp only [armHead, spans_keep, spans_ap, spans_fmap] at h
  obtain ⟨b, ⟨a, ⟨e, ⟨k, ⟨m, hcase, hws⟩, harrow⟩, hws'⟩, hbody⟩, hend⟩ := h
  have hm := hcase.bounds hi
  have hk := hws.bounds hm.2.1
  have he := harrow.bounds hk.2.1
  have ha := hws'.bounds he.2.1
  have hb := hbody.bounds ha.2.1
  have hn := hend.bounds hb.2.1
  exact ⟨m, k, e, hcase, hws, harrow, by omega⟩

/-! ### Blanks before something else -/

theorem among_stays (hi : i ≤ text.length) (hfree : ¬Ends text chars.toList i) :
    Spans text (.token (.star (Shape.among chars)) name) i i := by
  have hnone : (text.drop i).takeWhile (fun c => chars.toList.contains c) = [] := by
    cases hrest : text.drop i with
    | nil => rfl
    | cons c tail =>
      refine List.takeWhile_cons_of_neg fun hc => hfree fun d hd => ?_
      rw [hrest] at hd
      cases hd
      exact List.contains_iff_mem.mp hc
  rw [Spans, read_token hi, Shape.among, match?_star_one, hnone]
  exact ⟨_, rfl⟩

/-! ### Numbers with a sign -/

theorem number_unsigned (hi : i ≤ text.length) (hminus : Ends text ['-'] i)
    (h : Spans text (.token Shape.number name) i n) :
    Spans text (lit "-") i (i + 1) ∧ Spans text (.token Shape.number name) (i + 1) n := by
  obtain ⟨e, hwhole, hfraction⟩ := (spans_token_seq hi).mp h
  obtain ⟨m, hsign, hdigits⟩ := (spans_token_seq hi).mp hwhole
  rcases spans_token_opt hi hsign with hsign | rfl
  · have hsign := spans_token_lit hi hsign
    obtain rfl : m = i + 1 := (spans_lit hi hsign).2
    have hi' := hsign.inside hi
    have hmiss : read text (.token (.lit "-") name) (i + 1) = .miss := by
      by_contra hne
      obtain ⟨_, hspans⟩ := spans_of_ne_miss rfl hne
      have hends : Ends text ['-'] (i + 1) := ends_of_starts (spans_lit hi' (spans_token_lit hi' hspans)).1
      exact hends.not_spans hi' rfl hdigits
    have hnone : Spans text (.token (.opt (.lit "-")) name) (i + 1) (i + 1) := by
      have halt : read text (.token (.opt (.lit "-")) name) (i + 1) = _ := read_token_alt hi'
      have hempty : read text (.token (.exactly []) name) (i + 1) = _ := read_token_exactly hi'
      rw [Spans, halt, read_alt, hmiss, miss_orElse, hempty, read_text hi']
      exact ⟨_, rfl⟩
    exact ⟨hsign, (spans_token_seq hi').mpr
      ⟨e, (spans_token_seq hi').mpr ⟨i + 1, hnone, hdigits⟩, hfraction⟩⟩
  · exact absurd hdigits (hminus.not_spans hi rfl)

theorem operand_of_number (h : Spans text (.token Shape.number "number") i n) :
    read text operand i ≠ .miss := by
  intro hmiss
  simp only [read_operand, operandBody, read_choice_cons, orElse_eq_miss, read_literal, literalBody,
    read_scalar, scalarLiteral, read_number, numberLiteral, read_fmap, map_eq_miss] at hmiss
  exact h.ne_miss hmiss.2.2.2.2.2.1.2.1.2.2.1

theorem number_of_case (hi : i ≤ text.length) (hminus : Ends text ['-'] i)
    (h : Spans text caseValue i n) : Spans text (.token Shape.number "number") i n := by
  have hnone : ∀ {α : Type} {p : Parser α}, shut ['-'] p = true → ¬Spans text p i n :=
    fun hshut => hminus.not_spans hi hshut
  simp only [caseValue, spans_choice_more, spans_choice_one, spans_fmap] at h
  rcases h with h | ⟨-, h | ⟨-, h⟩⟩
  · exact absurd h (hnone (by decide))
  · exact absurd h (hnone (by decide))
  · have hbody := (spans_congr read_literal).mp h
    simp only [literalBody, spans_choice_more, spans_choice_one] at hbody
    rcases hbody with h | ⟨-, h | ⟨-, h⟩⟩
    · exact absurd h (hnone (by decide))
    · have hbody := (spans_congr read_scalar).mp h
      simp only [scalarLiteral, spans_choice_more, spans_choice_one] at hbody
      rcases hbody with h | ⟨-, h | ⟨-, h | ⟨-, h⟩⟩⟩
      · exact absurd h (hnone (by decide))
      · exact absurd h (hnone (by decide))
      · have hbody := (spans_congr read_number).mp h
        exact spans_fmap.mp hbody
      · exact absurd h (hnone (by decide))
    · exact absurd h (hnone (by decide))

/-- Behind a value, a case that begins with a minus sign is an operator and its operand. -/
theorem operates_of_case (hn : n ≤ text.length) (hws : Spans text ws n k)
    (hminus : Ends text ['-'] k) (hcase : Spans text caseValue k e) : ∃ e, Operates text n e := by
  have hk := hws.inside hn
  obtain ⟨hsign, hdigits⟩ := number_unsigned hk hminus (number_of_case hk hminus hcase)
  have hk' := hsign.inside hk
  obtain ⟨k₁, hoperator⟩ : ∃ k₁, Spans text operator k k₁ := by
    refine spans_of_ne_miss rfl fun hmiss => ?_
    simp only [operator, read_label, BinaryOp.all, List.map, read_choice_cons, orElse_eq_miss,
      read_fmap, map_eq_miss] at hmiss
    exact hsign.ne_miss hmiss.2.2.2.2.2.2.2.2.2.1
  have hsingle : k₁ = k + 1 := by
    obtain ⟨op, hop, hend⟩ := operator_spans hk hoperator
    obtain ⟨-, tail, htail⟩ := drop_of_lit (c := '-') rfl hk hsign
    rw [htail] at hop
    cases op with
    | sub => exact hend
    | subAssign =>
      have hequals : Ends text ['='] (k + 1) := by
        have hstarts : "=".toList.isPrefixOf (text.drop (k + 1)) = true := by
          rw [(drop_succ htail).2]
          exact hop
        exact ends_of_starts hstarts
      exact absurd hdigits (hequals.not_spans hk' rfl)
    | _ => cases hop
  obtain ⟨e, hoperand⟩ := spans_of_ne_miss rfl (operand_of_number hdigits)
  have hblanks : Spans text ws (k + 1) (k + 1) :=
    among_stays hk' fun hends => hends.not_spans hk' rfl hdigits
  exact ⟨e, k, k + 1, k + 1, hws, hsingle ▸ hoperator, hblanks, hoperand⟩

/-! ### Where arms end -/

/-- Where neither free space nor the end of the selection follows an arm, another case does. -/
theorem ArmEnds.case (h : ArmEnds text last m) (hm : m ≤ text.length)
    (hfree : ¬Ends text (separators '\x7d') m) : ∃ a k e, a ≤ last ∧
      Spans text caseValue m a ∧ Spans text ws a k ∧ Spans text (lit "=>") k e := by
  rcases h with ⟨e, hclosed⟩ | ⟨e, hle, hitem⟩
  · refine absurd (unclosed_of_heads rfl hm fun d hd hseparator => hfree fun d' hd' => ?_) hclosed.ne_miss
    cases hd.symm.trans hd'
    exact hseparator
  · obtain ⟨k, hblank, hchoice⟩ := spans_skip.mp hitem
    have hstays : Spans text blank m m := among_stays hm fun hends => hfree (hends.mono (by decide))
    obtain rfl := hstays.unique hblank
    rcases spans_choice_cons.mp hchoice with hcomment | ⟨-, harm⟩
    · refine absurd (hcomment.ends ['/'] hm rfl fun c hc => ?_) fun hends => hfree (hends.mono (by decide))
      simpa [begins, commentText, Shape.lineComment] using hc
    · obtain ⟨p, hp, harm⟩ := choice_spans harm
      rw [List.mem_singleton.mp hp] at harm
      obtain ⟨a, k, d, hcase, hws, harrow, ha⟩ := arm_spans hm harm
      exact ⟨a, k, d, Nat.le_trans ha hle, hcase, hws, harrow⟩

theorem name_of_default (hi : i ≤ text.length) (h : Spans text defaultCase i n) :
    Spans text identifier i n := by
  simp only [defaultCase, spans_ap, spans_fmap] at h
  obtain ⟨m, hmark, v, hguard⟩ := h
  obtain ⟨rfl, tail, htail⟩ := drop_of_lit (c := '_') rfl hi hmark
  obtain ⟨hi', hrest⟩ := drop_succ htail
  obtain ⟨u, hname⟩ := read_identifier hi htail (by decide)
  rw [read_notFollowedBy, read_token hi', hrest] at hguard
  cases tail with
  | nil =>
    cases hguard
    exact ⟨u, hname⟩
  | cons c others =>
    by_cases hc : Parse.Engine.isWordChar c = true
    · simp [Shape.wordPart, Pattern.match?, hc] at hguard
    · simp only [Shape.wordPart, Pattern.match?, if_neg hc, Verdict.ok.injEq] at hguard
      rw [List.takeWhile_cons_of_neg hc] at hname
      exact hguard.2 ▸ ⟨u, hname⟩

theorem value_of_case (hi : i ≤ text.length) (h : Spans text caseValue i n) :
    read text value i ≠ .miss := by
  intro hmiss
  simp only [caseValue, spans_choice_more, spans_choice_one, spans_fmap] at h
  rcases h with hdefault | ⟨-, haccess | ⟨-, hliteral⟩⟩
  · exact value_of_name (name_of_default hi hdefault) hmiss
  · simp only [read_value, valueBody, read_choice_cons, orElse_eq_miss] at hmiss
    exact haccess.ne_miss hmiss.2.2.1
  · simp only [read_value, valueBody, read_choice_cons, orElse_eq_miss] at hmiss
    exact hliteral.ne_miss hmiss.2.2.2.2.2.2.1

/-- What follows an arm before the semicolons, in both texts. -/
structure ArmHalts (front back rest : List Char) (m : Nat) : Prop where
  inside : m < front.length
  source : ArmEnds (front ++ back) front.length m
  target : ArmEnds (front ++ ';' :: rest) front.length m

theorem armEnd_persists (hn : n ≤ front.length) (hend : Spans (front ++ back) armEnd n m)
    (hm : m < front.length) : Spans (front ++ ';' :: rest) armEnd n m := by
  have hpersists : Persists front back rest (Ends front []) armEnd n :=
    (cuts_armEnd hn).persists (cuts_armEnd hn) rfl
  exact (hpersists.spans hend (Nat.le_of_lt hm)).resolve_right fun hends =>
    absurd hends.le (Nat.not_le_of_lt hm)

theorem armEnd_spans (hn : n ≤ text.length) (h : Spans text armEnd n m) : ∃ k, Spans text ws n k ∧
    k ≤ text.length ∧ (Ends text [';', ','] k ∧ k ≤ m ∨ m = k) := by
  obtain ⟨k, hblanks, hmark⟩ := (spans_token_seq hn).mp h
  have hws : Spans text ws n k := spans_token_name hn hblanks
  have hk := hws.inside hn
  refine ⟨k, hws, hk, (spans_token_opt hk hmark).imp (fun hmark => ⟨?_, (hmark.bounds hk).1⟩) id⟩
  exact hmark.ends _ hk rfl fun c hc => by simpa [begins, Shape.among] using hc

namespace ArmHalts

theorem not_operates (h : ArmHalts front back rest m) (hn : n ≤ front.length)
    (hend : Spans (front ++ back) armEnd n m) (hsource : ∀ e, ¬Operates (front ++ back) n e) :
    ¬Operates (front ++ ';' :: rest) n e := by
  rintro ⟨k, k₁, k₂, hws, hoperator, hws', hoperand⟩
  have hn' : n ≤ (front ++ ';' :: rest).length := le_append hn
  have hend' : Spans (front ++ ';' :: rest) armEnd n m := armEnd_persists hn hend h.inside
  have hk := hws.inside hn'
  obtain ⟨op, hop, -⟩ := operator_spans hk hoperator
  have hcases : Ends (front ++ ';' :: rest) ['=', '!', '+', '*', '<', '>'] k ∨
      Ends (front ++ ';' :: rest) ['/'] k ∨ Ends (front ++ ';' :: rest) ['-'] k := by
    cases op <;> first
      | exact .inl ((ends_of_starts hop).mono (by decide))
      | exact .inr (.inl (ends_of_starts hop))
      | exact .inr (.inr (ends_of_starts hop))
  rcases hcases with hends | hslash | hminus
  · exact h.target.not_ends hn' hend' hws (by decide) hends
  · -- A slash before an operand opens no comment.
    have hgap : read (front ++ ';' :: rest) (.token gap "whitespace") k = .miss :=
      gap_misses_at_operator hk hoperator hws' hoperand
    obtain ⟨k', hws₁, -, ⟨hmark, -⟩ | rfl⟩ := armEnd_spans hn' hend'
    · obtain rfl := hws.unique hws₁
      exact hmark.clash hk hoperator (by decide)
    · obtain rfl := hws.unique hws₁
      rcases h.target with ⟨e, hclosed⟩ | ⟨e, -, hitem⟩
      · obtain ⟨x, hspace, hclose⟩ := spans_skip.mp hclosed
        obtain rfl := ((space_spans hk).mp hspace).many_of_miss hgap
        exact hslash.clash hk hclose (by decide)
      · obtain ⟨x, hblank, hchoice⟩ := spans_skip.mp hitem
        obtain rfl := hslash.spans_eq hk hblank (by decide)
        rcases spans_choice_cons.mp hchoice with hcomment | ⟨-, harm⟩
        · have hline := spans_fmap.mp (spans_fmap.mp hcomment)
          exact (gap_of_comment hk (.inl hline)).ne_miss hgap
        · exact hslash.clash hk harm (by decide)
  · -- A minus sign before a number is an operator in both texts.
    obtain ⟨k', hws₁, hk₁, hcases⟩ := armEnd_spans (le_append hn) hend
    have hle : k' ≤ front.length := by
      have := h.inside
      omega
    obtain rfl := hws.unique ((inert_ws hn).keeps.spans hws₁ hle)
    have hleads := hminus.leads hle (by decide)
    have hminus' : Ends (front ++ back) ['-'] k := hleads.ends
    rcases hcases with ⟨hmark, -⟩ | rfl
    · exact hleads.not_ends (by decide) hmark
    · obtain ⟨a, _, _, -, hcase, -⟩ := h.source.case hk₁ (hleads.not_ends (by decide))
      obtain ⟨e, hoperates⟩ := operates_of_case (le_append hn) hws₁ hminus' hcase
      exact hsource e hoperates

theorem not_answers (h : ArmHalts front back rest m) (hn : n ≤ front.length)
    (hend : Spans (front ++ back) armEnd n m) : ¬Answers front back rest n := by
  rintro ⟨hmiss, hne⟩
  obtain ⟨e, hspans⟩ := spans_of_ne_miss rfl hne
  obtain ⟨k, hblanks, hvalue⟩ := spans_skip.mp hspans
  obtain ⟨k', hws, hk, hcases⟩ := armEnd_spans (le_append hn) hend
  have hlt : k' < front.length := by
    have := h.inside
    omega
  have hle := Nat.le_of_lt hlt
  obtain rfl := (ws_of_ws1 (le_append hn) hblanks).unique ((inert_ws hn).keeps.spans hws hle)
  have hbegins : ∀ {heads : List Char}, shut heads value = true → ¬Ends (front ++ back) heads k :=
    fun hshut hends => (hends.of_whole.whole hlt).not_spans (le_append hle) hshut hvalue
  have hnone : read (front ++ back) value k = .miss := by
    by_contra hsome
    obtain ⟨k', hblanks'⟩ : ∃ k, Spans (front ++ back) ws1 n k :=
      spans_of_ne_miss rfl fun hmiss => hblanks.ne_miss ((inert_ws1 hn).misses hmiss)
    obtain rfl := hws.unique (ws_of_ws1 (le_append hn) hblanks')
    obtain ⟨e, hspans⟩ := spans_of_ne_miss rfl hsome
    exact (spans_skip.mpr ⟨k, hblanks', hspans⟩).ne_miss hmiss
  rcases hcases with ⟨hmark, -⟩ | rfl
  · exact hbegins (by decide) hmark
  · obtain ⟨a, _, _, -, hcase, -⟩ := h.source.case hk (hbegins (by decide))
    exact value_of_case hk hcase hnone

theorem halts (h : ArmHalts front back rest m) (hn : n ≤ front.length)
    (hend : Spans (front ++ back) armEnd n m) : Halts front back rest n where
  notLonger := by
    have hend' : Spans (front ++ ';' :: rest) armEnd n m := armEnd_persists hn hend h.inside
    rintro (hleads | ⟨⟨e, hoperates⟩, hsource⟩)
    · have hws := ws_spans (le_append hn : n ≤ (front ++ ';' :: rest).length)
      rw [hleads.ends.spans_eq (le_append hn) hws (by decide)] at hws
      exact h.target.not_ends (le_append hn) hend' hws (by decide) hleads.ends
    · exact h.not_operates hn hend hsource hoperates
  notAnswers := h.not_answers hn hend
  plain k c hws hc hmem := by
    have hend' : Spans (front ++ ';' :: rest) armEnd n m := armEnd_persists hn hend h.inside
    have hends : Ends (front ++ ';' :: rest) ['\x7b', ':', '='] k := by
      intro d hd
      cases hd.symm.trans hc
      exact hmem
    exact h.target.not_ends (le_append hn) hend' hws (by decide) hends

end ArmHalts

/-! ### Jumps -/

theorem goto_spans (h : Spans text goto i n) : ∃ a k b b' c d d' e, Spans text (word "goto") i a ∧
    Spans text ws1 a k ∧ Spans text identifier k b ∧ Spans text ws b b' ∧
    Spans text (lit "(") b' c ∧ Spans text space c d ∧ Spans text (.sepBy simple comma) d d' ∧
    Spans text space d' e ∧ Spans text (closing ")") e n := by
  simp only [goto, spans_keep, spans_ap, spans_fmap, spans_skip] at h
  obtain ⟨e, ⟨d', ⟨d, ⟨c, ⟨b', ⟨b, ⟨k, ⟨a, hword, hblanks⟩, hname⟩, hws⟩, hopen⟩, hspace⟩, hlist⟩,
    hspace'⟩, hclose⟩ := h
  exact ⟨a, k, b, b', c, d, d', e, hword, hblanks, hname, hws, hopen, hspace, hlist, hspace', hclose⟩

/-- No other statement goes on as a jump does behind its first word. -/
theorem goto_block (hi : i ≤ text.length) (h : Spans text goto i n) : ∃ a k b,
    Block text ['g'] i a ∧ Spans text ws1 a k ∧ Spans text ws a k ∧ Spans text identifier k b := by
  obtain ⟨a, k, b, _, _, _, _, _, hword, hblanks, htarget, -⟩ := goto_spans h
  have hbegins : Ends text ['g'] i := word_begins rfl hi hword
  obtain ⟨u, hword⟩ := hword
  have hname : Spans text identifier i a :=
    read_identifier_of_word hi hword (by decide) (by decide)
  have hws := ws_of_ws1 (hname.inside hi) hblanks
  exact ⟨a, k, b, Block.of_sequel hi hname hbegins hws htarget (by decide), hblanks, hws, htarget⟩

/-- A jump to where a case stands is closed where the case is. -/
theorem goto_case (hi : i ≤ text.length) (hname : Spans text identifier i m)
    (hws : Spans text ws m k) (hgoto : Spans text goto i n) (hcase : Spans text caseValue k a)
    (hblanks : Spans text ws a c) (harrow : Spans text (lit "=>") c d) : n ≤ a := by
  obtain ⟨m', k', b, b', p, l, l', e, ⟨v, hword⟩, hws1, htarget, hws', hopen, hspace, hlist, hspace',
    hclose⟩ := goto_spans hgoto
  have hname' : Spans text identifier i m' :=
    read_identifier_of_word hi hword (by decide) (by decide)
  obtain rfl := hname.unique hname'
  have hm := hname.inside hi
  obtain rfl := hws.unique (ws_of_ws1 hm hws1)
  have hk := hws.inside hm
  have hb := htarget.inside hk
  have hb' := hws'.inside hb
  have hp := hopen.inside hb'
  have hl := hspace.inside hp
  have hparen : Ends text ['('] b' := ends_of_starts (spans_lit hb' hopen).1
  -- The target of the jump is not the whole case, because an arrow follows that.
  have hother : a ≠ b := by
    rintro rfl
    obtain rfl := hws'.unique hblanks
    exact hparen.clash hb' harrow (by decide)
  simp only [caseValue, spans_choice_more, spans_choice_one, spans_fmap] at hcase
  rcases hcase with hdefault | ⟨-, haccess | ⟨-, hliteral⟩⟩
  · exact absurd ((name_of_default hk hdefault).unique htarget) hother
  · obtain ⟨x, y, hbase, hstep, hle⟩ := access_spans hk haccess
    rcases base_spans hbase with hcall | ⟨-, hname'⟩
    · obtain ⟨b₁, p₁, l₁, l₂, e₁, hname', hopen', hspace₁, hlist', hspace₂, hclose'⟩ := call_spans hcall
      obtain rfl := htarget.unique hname'
      have hends : Ends text ['('] b := ends_of_starts (spans_lit hb hopen').1
      obtain rfl := hends.spans_eq hb hws' (by decide)
      obtain rfl := hopen.unique hopen'
      obtain rfl := hspace.unique hspace₁
      rw [← lists_close_together hl hlist' hspace₂ hclose' hlist hspace' hclose]
      exact hle
    · obtain rfl := htarget.unique hname'
      have hends := chain_ends hb hstep
      obtain rfl := hends.spans_eq hb hws' (by decide)
      exact absurd hopen (hends.not_spans hb (by decide))
  · rcases literal_name hk htarget hliteral with rfl | hprompt
    · exact absurd rfl hother
    · rcases prompt_cases hk hprompt with hbacktick | hllm
      · exact absurd htarget (hbacktick.not_spans hk (by decide))
      · obtain ⟨p₁, l₁, c₁, d₁, e₁, hllm, hspace₁, hstring, hobject, hspace₂, hclose'⟩ := llm_spans hllm
        obtain ⟨hname', hends, rfl⟩ := llm_name hk hllm
        obtain rfl := htarget.unique hname'
        obtain rfl := hends.spans_eq hb hws' (by decide)
        obtain ⟨-, rfl⟩ := spans_lit hb hopen
        obtain rfl := hspace.unique hspace₁
        refine Nat.le_of_eq (llm_list hl hstring hobject hspace₂ hclose' hlist hspace' hclose
          (fun hends hliteral => simple_of_string hl hends hliteral) (by decide))

theorem ArmHalts.goto_misses (h : ArmHalts front back rest m) (ht : Tight front back)
    (hi : i ≤ front.length) (hn : n ≤ front.length) (hend : Spans (front ++ back) armEnd n m)
    (hmiss : read (front ++ back) goto i = .miss)
    (hrest : Spans (front ++ ';' :: rest) (.choice [assignment, Node.expr <$> value]) i n) :
    read (front ++ ';' :: rest) goto i = .miss := by
  by_contra hne
  have hi' : i ≤ (front ++ ';' :: rest).length := le_append hi
  obtain ⟨e, v, hread⟩ := spans_of_ne_miss rfl hne
  obtain ⟨a, k, b, hblock, hblanks, hws, htarget⟩ := goto_block hi' ⟨v, hread⟩
  have ha := hblock.name.inside hi'
  have hk := hws.inside ha
  -- What was read in place of the jump is nothing but its first word.
  obtain rfl : n = a := by
    obtain ⟨p, hp, hspans⟩ := choice_spans hrest
    simp only [List.mem_cons, List.not_mem_nil, or_false] at hp
    rcases hp with rfl | rfl
    · exact absurd hspans (hblock.not_assignment hi')
    · rcases hblock.value_eq hi' (by decide) (spans_fmap.mp hspans) with hsame | hcall
      · exact hsame
      · exact absurd hblanks ((call_rest hi' hcall hblock.name).not_spans ha (by decide))
  have hend' : Spans (front ++ ';' :: rest) armEnd n m := armEnd_persists hn hend h.inside
  obtain ⟨k', hws', -, ⟨hmark, -⟩ | rfl⟩ := armEnd_spans ha hend'
  · obtain rfl := hws.unique hws'
    exact hmark.clash hk htarget (by decide)
  · obtain rfl := hws.unique hws'
    obtain ⟨c, _, _, hc, hcase, hws₁, harrow⟩ :=
      h.target.case hk fun hends => hends.clash hk htarget (by decide)
    have he := goto_case hi' hblock.name hws ⟨v, hread⟩ hcase hws₁ harrow
    have hbegin : Spans front goto i e :=
      ⟨v, (firm_goto tight_semicolon hi).eq_ok hread (Nat.le_trans he hc)⟩
    exact (hbegin.whole (firm_goto ht hi) rfl).ne_miss hmiss

/-! ### Arms -/

variable (h : Inserted front back rest) (hi : i ≤ front.length)
include h hi

theorem Inserted.armBody_persists (hlater : LaterPersist front back rest i)
    (hok : read (front ++ back) armBody i = .ok v n) (hn : n ≤ front.length)
    (hend : Spans (front ++ back) armEnd n m) (hhalts : ArmHalts front back rest m) :
    read (front ++ ';' :: rest) armBody i = .ok v n := by
  have hvalue := hhalts.halts hn hend
  rw [read_armBody] at hok ⊢
  refine choice_carried hok (fun hok => ?_) (fun hok => ?_)
    fun hmiss _ _ => h.return_misses hi hmiss
  · exact (h.persists_return hi v n hok hn).resolve_right fun hkind =>
      hkind.elim hvalue.notLonger hvalue.notAnswers
  refine choice_carried hok (fun hok => (h.stable_goto hi).read hok hn) (fun hok => ?_)
    fun hmiss _ hrest => hhalts.goto_misses h.tight hi hn hend hmiss hrest
  refine choice_carried hok (fun hok => h.assignment_persists hi hlater hok hn hvalue)
    (fun hok => ?_) fun _ _ hrest => ?_
  · exact choice_last hok fun hok => h.value_persists hi hok hn hvalue
  · obtain ⟨p, hp, hspans⟩ := choice_spans hrest
    rw [List.mem_singleton.mp hp] at hspans
    exact hvalue.assignment_misses hi (spans_fmap.mp hspans)

theorem Inserted.arm_persists (hlater : LaterPersist front back rest i)
    (hok : read (front ++ back) arm i = .ok v n) (hhalts : ArmHalts front back rest n) :
    read (front ++ ';' :: rest) arm i = .ok v n := by
  have hn := Nat.le_of_lt hhalts.inside
  refine keep_carried (p := .seq armHead armBody) (q := armEnd) hi hok hn fun e _ he hseq hend => ?_
  refine ⟨seq_carried hi (h.stable_armHead hi) hseq he fun u m him _ hm hbody => ?_,
    armEnd_persists he hend hhalts.inside⟩
  exact h.armBody_persists hm (hlater.mono him) hbody he hend hhalts

theorem Inserted.armItem_persists (hlater : LaterPersist front back rest i)
    (hok : read (front ++ back) armItem i = .ok v n) (hhalts : ArmHalts front back rest n) :
    read (front ++ ';' :: rest) armItem i = .ok v n := by
  have hn := Nat.le_of_lt hhalts.inside
  refine skip_carried hi (inert_blank hi).keeps hok hn fun u k hik _ hk hchoice => ?_
  refine choice_carried hchoice (fun hcomment => ?_) (fun hchoice => ?_) fun hmiss _ _ => ?_
  · refine ((persists_commentText hk).map Arm.comment u n hcomment hn).resolve_right fun hends => ?_
    exact absurd hends.le (Nat.not_le_of_lt hhalts.inside)
  · exact choice_last hchoice fun hok => h.arm_persists hk (hlater.mono hik) hok hhalts
  · rw [read_fmap, map_eq_miss] at hmiss ⊢
    exact commentText_misses hk hmiss

theorem Inserted.stable_selection (hlater : LaterPersist front back rest i) :
    Stable front back rest selection i := by
  have hhead : Stable front back rest (Node.select <$> conditional "match" <* ws <* lit "\x7b" :
      Parser (List Arm → Node)) i := by
    refine Keeps.keep hi ?_ fun n _ _ hn => (inert_lit hn (by decide)).keeps
    exact Keeps.keep hi ((h.stable_conditional hi (by decide)).map _)
      fun n _ _ hn => (inert_ws hn).keeps
  refine Carries.braced hi hhead (fun e n he hn => closed_persists he hn)
    fun j arms e n hij _ hj he hn hread hwhole => ⟨?_, id⟩
  have hclosed := (follows_closed _ he).spans hwhole hn
  obtain ⟨hchain, hmiss⟩ := chain_of_many (le_append hj) rfl hread
  have hlt := (hclosed.bounds he).2.2 rfl
  refine (hchain.carried (ArmHalts front back rest) (le_append hj) he
    (fun j' v n' hj' hle hok hn' hnext => ?_) ⟨?_, ?_, ?_⟩).1.many (le_append hj) rfl ?_
  · have hsame := h.armItem_persists hle (hlater.mono (Nat.le_trans hij hj')) hok hnext
    have hlt := (read_bounds hok (le_append hle)).2.2 rfl
    exact ⟨hsame, by omega, .inr ⟨n', hn', v, hok⟩, .inr ⟨n', hn', v, hsame⟩⟩
  · exact Nat.lt_of_lt_of_le hlt hn
  · exact .inl ⟨n, hwhole⟩
  · exact .inl ⟨n, closed_persists he hn hwhole⟩
  · exact armItem_misses_at_end he (le_append he) hmiss hclosed (closed_persists he hn hwhole)
      (hclosed.whole_blank he) fun m hm => commentText_misses hm

end AgentLang.Grammar
