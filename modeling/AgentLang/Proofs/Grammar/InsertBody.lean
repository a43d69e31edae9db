import AgentLang.Proofs.Grammar.CutDeclaration
import AgentLang.Proofs.Grammar.InsertStatement

/-!
# Inserting semicolons: bodies

The items of a body that is closed before the semicolons are the same with and without them, provided
that the statements among them are. They are followed from the last one backwards, because whether a
statement goes on depends on what stands behind it.
-/

namespace AgentLang.Grammar

open Verdict
open Parse.Parser (lit word)

variable {α β : Type} {front back rest : List Char} {K : Nat → Prop} {i m n last : Nat}

/-! ### Line ends and comments -/

theorem Ends.le (h : Ends front [] n) : front.length ≤ n := by
  cases hrest : front.drop n with
  | nil => exact List.drop_eq_nil_iff.mp hrest
  | cons c others => cases h c (by rw [hrest]; rfl)

variable (h : Inserted front back rest) (hi : i ≤ front.length)
include hi

theorem inert_newline : Inert front back rest newline i :=
  inert_of_cuts hi (firm_newline hi) (firm_newline hi) rfl rfl

theorem persists_commentText : Persists front back rest (Ends front []) commentText i :=
  (cuts_commentText hi).persists (cuts_commentText hi) rfl

theorem commentText_misses (h : read (front ++ back) commentText i = .miss) :
    read (front ++ ';' :: rest) commentText i = .miss := by
  rw [commentText, read_fmap, map_eq_miss] at h ⊢
  by_contra hne
  obtain ⟨e, hspans⟩ := spans_of_ne_miss rfl hne
  obtain ⟨m, ⟨u, hopen⟩, -⟩ := (spans_token_seq (le_append hi)).mp hspans
  have hm := read_stays rfl hi hopen
  have hfirm : Firm front back (.token (.lit "//") "comment") i := firm_exactly hi
  have hopen' : Spans (front ++ back) (.token (.lit "//") "comment") i m :=
    Spans.whole ⟨u, (firm_exactly hi).eq_ok hopen hm⟩ hfirm rfl
  obtain ⟨n, hothers⟩ : ∃ n, Spans (front ++ back)
      (.token (.star (Shape.except "\n")) "comment") m n :=
    spans_of_ne_miss rfl (read_certain rfl (le_append hm))
  exact ((spans_token_seq (le_append hi)).mpr ⟨m, hopen', hothers⟩).ne_miss h

theorem comment_misses (h : read (front ++ back) comment i = .miss) :
    read (front ++ ';' :: rest) comment i = .miss := by
  rw [comment, read_fmap, map_eq_miss] at h ⊢
  exact commentText_misses hi h

/-! ### Ends of statements -/

omit hi in
theorem stop_whole (hn : n < front.length) (h : Spans front stop n m) :
    ∃ m, Spans (front ++ back) stop n m := by
  refine spans_of_ne_miss rfl fun hmiss => ?_
  simp only [stop, read_choice_cons, read_choice_nil, orElse_eq_miss, read_fmap, map_eq_miss,
    and_true] at hmiss
  obtain ⟨hline, hbrace, hslashes, hstar, -⟩ := hmiss
  have hn' := Nat.le_of_lt hn
  have hnone : ∀ {p : Parser String} {m}, Firm front back p n → harmless p = true →
      read (front ++ back) p n = .miss → ¬Spans front p n m :=
    fun hfirm hopen hmiss hspans => (hspans.whole hfirm hopen).ne_miss hmiss
  simp only [stop, spans_choice_more, spans_choice_one, spans_fmap] at h
  rcases h with h | ⟨-, h | ⟨-, h | ⟨-, h | ⟨-, v, h⟩⟩⟩⟩
  · exact hnone (firm_lineEnd hn' _) rfl hline h
  · exact hnone (firm_lit hn' _) rfl hbrace h
  · exact hnone (firm_lit hn' _) rfl hslashes h
  · exact hnone (firm_lit hn' _) rfl hstar h
  · rw [read_eof, if_neg (Nat.not_le_of_lt hn)] at h
    cases h

/-- The end of a statement is the same in both texts, if something else follows it before the
semicolons. -/
theorem end_persists (h : Spans (front ++ back) statementEnd i n) (hn : n < front.length)
    (htail : Tail front n) : Spans (front ++ ';' :: rest) statementEnd i n := by
  have hle := Nat.le_of_lt hn
  rcases statementEnd_cases (end_of_whole hi h hle htail) with hsemicolons | ⟨-, hblanks, m, hstop⟩
  · have hwhole : Spans (front ++ ';' :: rest) semicolons i n :=
      (hsemicolons.of_whole (cuts_semicolons hi) rfl).resolve_right fun hends =>
        absurd hends.le (Nat.not_le_of_lt hn)
    exact spans_choice_cons.mpr (.inl (spans_fmap.mpr hwhole))
  · have hblanks' : Spans (front ++ ';' :: rest) ws i n :=
      (hblanks.of_whole (cuts_ws hi) rfl).resolve_right fun hends =>
        absurd hends.le (Nat.not_le_of_lt hn)
    obtain ⟨e, hstop'⟩ : ∃ e, Spans (front ++ ';' :: rest) stop n e := stop_whole hn hstop
    refine statementEnd_of_stop ?_ hblanks' hstop'
    by_contra hne
    obtain ⟨_, hspans⟩ := spans_of_ne_miss rfl hne
    obtain ⟨c, hc, hhead⟩ := (stop_ends (le_append hle) hstop').leads hle (by decide)
    have hsemicolon := semicolons_ends (le_append hi) hblanks' hspans c ((head_whole hn).mpr hhead)
    rw [List.mem_singleton.mp hsemicolon] at hc
    exact absurd hc (by decide)

/-! ### Items -/

/-- No statement goes on behind the place. -/
structure Finished (text : List Char) (n : Nat) : Prop where
  ends : ∃ e, Spans text statementEnd n e
  noElse : read text elseOpening n = .miss
  noComma : read text (space *> lit "," : Parser String) n = .miss

omit hi in
theorem Finished.of_lands (hn : n ≤ text.length) (hend : Spans text statementEnd n e)
    (h : Lands text last e) : Finished text n := by
  have he := hend.inside hn
  refine ⟨⟨e, hend⟩, else_misses_before_end hn hend (h.noElse he), ?_⟩
  by_contra hne
  obtain ⟨_, hspans⟩ := spans_of_ne_miss rfl hne
  obtain ⟨k, hspace, hcomma⟩ := spans_skip.mp hspans
  rcases space_after_end hn hend hspace with hspace' | hsemicolon
  · exact (spans_skip.mpr ⟨k, hspace', hcomma⟩).ne_miss (h.noComma he)
  · exact hsemicolon.clash (hspace.inside hn) hcomma (by decide)

/-- A statement before the semicolons is the same with them, if it does not go on there. -/
def StatementPersists (front back rest : List Char) (i : Nat) : Prop :=
  ∀ v n, read (front ++ back) statement i = .ok v n → n ≤ front.length →
    Finished (front ++ ';' :: rest) n → read (front ++ ';' :: rest) statement i = .ok v n

include h

theorem Inserted.item_persists
    (hstatement : ∀ j, i ≤ j → j ≤ front.length → StatementPersists front back rest j)
    (hok : read (front ++ back) bodyItem i = .ok v n) (hn : n < front.length) (htail : Tail front n)
    (hlands : Lands (front ++ ';' :: rest) last n) :
    read (front ++ ';' :: rest) bodyItem i = .ok v n := by
  have hn' := Nat.le_of_lt hn
  refine skip_carried hi (inert_ws hi).keeps hok hn' fun w k hik _ hk hchoice => ?_
  refine (inert_newline hk).choice_carried hn' hchoice fun hchoice => ?_
  refine choice_carried hchoice (fun hcomment => ?_) (fun hchoice => ?_)
    fun hmiss _ _ => comment_misses hk hmiss
  · refine ((persists_commentText hk).map Node.comment w n hcomment hn').resolve_right fun hends => ?_
    exact absurd hends.le (Nat.not_le_of_lt hn)
  refine choice_carried hchoice (fun hcomment => ?_) (fun hchoice => ?_)
    fun hmiss _ _ => h.noBlockComment k hk hmiss
  · have hstable : Stable front back rest blockComment k :=
      h.keeps (fun _ => firm_blockComment hk) rfl
    exact hstable.read hcomment hn'
  refine choice_last hchoice fun hterminated => ?_
  refine keep_carried hk hterminated hn' fun m _ hm hfirst hend => ?_
  have hend' : Spans (front ++ ';' :: rest) statementEnd m n := end_persists hm hend hn htail
  have hfinished := Finished.of_lands (le_append hm) hend' hlands
  exact ⟨hstatement k hik hk w m hfirst hm hfinished, hend'⟩

theorem Inserted.items_persist
    (hstatement : ∀ j, i ≤ j → j ≤ front.length → StatementPersists front back rest j)
    (hchain : Chain (front ++ back) bodyItem i nodes last) (hlast : last < front.length)
    (htail : Tail front last) (hlands : Lands (front ++ ';' :: rest) front.length last) :
    Chain (front ++ ';' :: rest) bodyItem i nodes last ∧
      Lands (front ++ ';' :: rest) front.length i := by
  suffices hboth : Chain (front ++ ';' :: rest) bodyItem i nodes last ∧
      i < front.length ∧ Tail front i ∧ Lands (front ++ ';' :: rest) front.length i from
    ⟨hboth.1, hboth.2.2.2⟩
  refine hchain.carried (k := front.length)
    (fun j => j < front.length ∧ Tail front j ∧ Lands (front ++ ';' :: rest) front.length j)
    (le_append hi) (Nat.le_of_lt hlast) ?_ ⟨hlast, htail, hlands⟩
  rintro j v n hij hj hok hn ⟨hlt, htail, hlands⟩
  have hsame := h.item_persists hj (fun k hk => hstatement k (by omega)) hok hlt htail hlands
  -- The beginning alone has the same item, so no line end or comment is broken off before it.
  have hbegin := item_of_whole hj (fun k _ hk => (statements_of_whole h.tight hk).1) hok hn htail
  have hmoves := (read_bounds hok (le_append hj)).2.2 rfl
  exact ⟨hsame, by omega, htail.of_item hj ⟨v, hbegin⟩, hlands.of_item (le_append hj) ⟨v, hsame⟩ hn⟩

/-! ### Bodies -/

omit h in
theorem closed_persists (hn : n ≤ front.length)
    (h : Spans (front ++ back) (space *> closing "\x7d") i n) :
    Spans (front ++ ';' :: rest) (space *> closing "\x7d") i n :=
  closed_whole (by decide) hi ((follows_closed _ hi).spans h hn)

theorem Inserted.item_misses_at_end (hmiss : read (front ++ back) bodyItem i = .miss)
    (hclosed : Spans front (space *> closing "\x7d") i n) :
    read (front ++ ';' :: rest) bodyItem i = .miss := by
  obtain ⟨k, hspace, hclose⟩ := spans_skip.mp hclosed
  obtain ⟨m, hblanks⟩ : ∃ m, Spans front ws i m := ⟨_, ws_spans hi⟩
  have hm := hblanks.inside hi
  have hrest : Spans front (space *> closing "\x7d") m n :=
    spans_skip.mpr ⟨k, space_after_ws hi hblanks hspace, hclose⟩
  have hws : ∀ {tail : List Char}, Spans (front ++ tail) ws i m :=
    fun {_} => hblanks.whole_ws hi hrest (by decide)
  obtain ⟨k', hspace', hclose'⟩ : ∃ k, Spans (front ++ ';' :: rest) space i k ∧
      Spans (front ++ ';' :: rest) (closing "\x7d") k n :=
    spans_skip.mp (closed_whole (by decide) hi hclosed)
  obtain ⟨u, hsource⟩ : Spans (front ++ back) ws i m := hws
  obtain ⟨v, htarget⟩ : Spans (front ++ ';' :: rest) ws i m := hws
  rw [bodyItem, read_skip] at hmiss ⊢
  rw [hsource] at hmiss
  rw [htarget]
  dsimp only [Verdict.bind] at hmiss ⊢
  simp only [read_choice_cons, read_choice_nil, orElse_eq_miss, and_true] at hmiss ⊢
  have hline : read (front ++ ';' :: rest) comment m = .miss := comment_misses hm hmiss.2.1
  have hblock := h.noBlockComment m hm hmiss.2.2.1
  exact ⟨(inert_newline hm).misses hmiss.1, hline, hblock,
    statement_misses_at_end (le_append hi) hws hspace' hclose' hline hblock⟩

theorem Inserted.stable_items {p : Parser (List Node → β)} (hp : Persists front back rest K p i)
    (hstatement : ∀ j, i ≤ j → (p.nullable (fun _ => false) = false → i < j) → j ≤ front.length →
      StatementPersists front back rest j)
    (hlanding : ∀ j, j ≤ front.length → Lands (front ++ ';' :: rest) front.length j → ¬K j) :
    Stable front back rest (.seq p (.many bodyItem) <* space <* closing "\x7d") i := by
  refine Carries.braced hi hp (fun e n he hn => closed_persists he hn)
    fun j nodes e n hij hlt hj he hn hread hclosed => ?_
  have hclosed := (follows_closed _ he).spans hclosed hn
  obtain ⟨hchain, hmiss⟩ := chain_of_many (le_append hj) rfl hread
  obtain ⟨k, hspace, hclose⟩ := spans_skip.mp hclosed
  obtain ⟨k', hspace', hclose'⟩ : ∃ k, Spans (front ++ ';' :: rest) space e k ∧
      Spans (front ++ ';' :: rest) (closing "\x7d") k n :=
    spans_skip.mp (closed_whole (by decide) he hclosed)
  have hk := hspace.bounds he
  have hn := hclose.bounds hk.2.1
  have hlater : ∀ j', j ≤ j' → j' ≤ front.length → StatementPersists front back rest j' := by
    intro j' hj' hle
    refine hstatement j' (Nat.le_trans hij hj') (fun hnull => ?_) hle
    exact Nat.lt_of_lt_of_le (hlt hnull) hj'
  obtain ⟨hitems, hlands⟩ := h.items_persist hj hlater hchain
    (Nat.lt_of_lt_of_le (Nat.lt_of_le_of_lt hk.1 (hn.2.2 rfl)) hn.2.1)
    (Tail.of_closing he hspace hclose)
    (Lands.of_closing (le_append he) hspace' hclose' hn.2.1)
  exact ⟨hitems.many (le_append hj) rfl (h.item_misses_at_end he hmiss hclosed), hlanding j hj hlands⟩

end AgentLang.Grammar
