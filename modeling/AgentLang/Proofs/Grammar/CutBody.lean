import AgentLang.Proofs.Grammar.CutStatement
import AgentLang.Proofs.Grammar.Succession

/-!
# Cutting bodies

The items of a body in a text and in a beginning of it, provided that the statements among them are
the same in both. A chain of items is followed from its last one backwards, because whether an item
is the same depends on what stands behind it.
-/

namespace AgentLang.Grammar

open Verdict
open Parse (Pattern)
open Parse.Parser (lit word)

variable {α β : Type} {front back : List Char} {i k m n last : Nat}

/-! ### Line ends and comments -/

variable (hi : i ≤ front.length)
include hi

theorem firm_lineEnd (name : String) : Firm front back (.token Shape.lineEnd name) i := by
  refine cuts_token_seq hi (L := Ends front []) ?_ (fun n _ hn => firm_exactly hn)
    (fun n hn h => h.closes hn rfl)
  refine cuts_token_opt hi (firm_exactly hi).cuts fun v n hok hn => ?_
  have htext : read (front ++ back) (.text "\r".toList name) i = .ok v n :=
    (read_token_exactly (le_append hi)).symm.trans hok
  exact ends_of_text hi htext hn rfl

theorem firm_newline : Firm front back newline i :=
  Cuts.map (firm_lineEnd hi _) _

theorem cuts_commentText : Cuts front back (Ends front []) commentText i :=
  Cuts.map (cuts_token_seq hi (firm_exactly hi) (fun _ _ hn => cuts_star_one hn)
    (fun _ _ => False.elim)) _

theorem cuts_comment : Cuts front back (Ends front []) comment i :=
  Cuts.map (cuts_commentText hi) _

theorem firm_blockComment : Firm front back blockComment i :=
  Cuts.map (cuts_token_seq hi (firm_exactly hi) (fun n _ hn => firm_through hn (by decide) _)
    (fun _ _ => False.elim)) _

/-! ### Ends of statements -/

/-- What ends a statement in the whole text ends it in the beginning, unless only its first
character is left there. -/
theorem stop_of_whole (h : Spans (front ++ back) stop i n)
    (hwhole : ∀ c, front.drop i = [c] → c ∉ ['\r', '/']) : ∃ m, Spans front stop i m := by
  refine spans_of_ne_miss rfl fun hmiss => ?_
  simp only [stop, read_choice_cons, read_choice_nil, orElse_eq_miss, read_fmap, map_eq_miss,
    and_true] at hmiss
  obtain ⟨hline, hbrace, hslashes, hstar, heof⟩ := hmiss
  have hlt : i < front.length := by
    rw [read_eof] at heof
    split at heof
    · cases heof
    · omega
  have hbeyond : ∀ {p : Parser String} {m}, Firm front back p i → read front p i = .miss →
      Spans (front ++ back) p i m → front.length < m := by
    rintro p m hfirm hmiss ⟨v, hread⟩
    by_contra hle
    cases hmiss.symm.trans (hfirm.eq_ok hread (Nat.le_of_not_lt hle))
  -- Of a mark of two characters only the first one would be left.
  have hsingle : front.length < i + 2 → ∀ c, Ends (front ++ back) [c] i → c ∉ ['\r', '/'] := by
    intro hshort c hends
    cases hrest : front.drop i with
    | nil => exact absurd (List.drop_eq_nil_iff.mp hrest) (Nat.not_le_of_lt hlt)
    | cons d rest =>
      have hlength := congrArg List.length hrest
      rw [List.length_drop, List.length_cons] at hlength
      have hnil : rest = [] := List.length_eq_zero_iff.mp (by omega)
      have hd : d = c := List.mem_singleton.mp (hends.of_whole d (by rw [hrest]; rfl))
      rw [← hd]
      exact hwhole d (hnil ▸ hrest)
  simp only [stop, spans_choice_more, spans_choice_one, spans_fmap] at h
  rcases h with h | ⟨-, h | ⟨-, h | ⟨-, h | ⟨-, v, h⟩⟩⟩⟩
  · have hn := hbeyond (firm_lineEnd hi _) hline h
    rcases newline_cases (le_append hi) (spans_fmap.mpr h) with hfeed | ⟨hreturn, hfeed⟩
    · have hend : n = i + 1 := (spans_lit (le_append hi) hfeed).2
      omega
    · have hend : n = i + 1 + 1 := (spans_lit (hreturn.inside (le_append hi)) hfeed).2
      exact hsingle (by omega) '\r' (ends_of_starts (spans_lit (le_append hi) hreturn).1) (by decide)
  · have hn := hbeyond (firm_lit hi _) hbrace h
    have hend : n = i + 1 := (spans_lit (le_append hi) h).2
    omega
  · have hn := hbeyond (firm_lit hi _) hslashes h
    have hend : n = i + 2 := (spans_lit (le_append hi) h).2
    exact hsingle (by omega) '/' (ends_of_starts (spans_lit (le_append hi) h).1) (by decide)
  · have hn := hbeyond (firm_lit hi _) hstar h
    have hend : n = i + 2 := (spans_lit (le_append hi) h).2
    exact hsingle (by omega) '/' (ends_of_starts (spans_lit (le_append hi) h).1) (by decide)
  · rw [read_eof, List.length_append] at h
    split at h
    · omega
    · cases h

theorem cuts_semicolons : Cuts front back (Ends front []) semicolons i := by
  refine cuts_token_seq hi (L := fun _ => False) ?_ (fun n _ hn => cuts_star_one hn)
    (fun _ _ => False.elim)
  exact cuts_token_seq hi (cuts_star_one hi) (fun n _ hn => firm_exactly hn)
    (fun n hn h => h.closes hn (by decide))

theorem end_of_whole (h : Spans (front ++ back) statementEnd i n) (hn : n ≤ front.length)
    (htail : Tail front n) : Spans front statementEnd i n := by
  rcases statementEnd_cases h with ⟨v, hsemicolons⟩ | ⟨hmiss, ⟨v, hblanks⟩, e, hstop⟩
  · have hfront : Spans front semicolons i n := ⟨v, (cuts_semicolons hi).eq_ok hsemicolons hn⟩
    exact spans_choice_cons.mpr (.inl (spans_fmap.mpr hfront))
  · obtain ⟨m, hstop'⟩ := stop_of_whole hn hstop htail.whole
    exact statementEnd_of_stop ((cuts_semicolons hi).eq_miss hmiss)
      ⟨v, (cuts_ws hi).eq_ok hblanks hn⟩ hstop'

/-! ### Items -/

/-- A statement of the whole text that has ended inside the beginning is also one there, if no
`else` follows it. -/
def StatementFollows (front back : List Char) (i : Nat) : Prop :=
  ∀ v n e, read (front ++ back) statement i = .ok v n → Spans (front ++ back) statementEnd n e →
    e ≤ front.length → read front elseOpening n = .miss → read front statement i = .ok v n

theorem item_of_whole (hstatement : ∀ j, i ≤ j → j ≤ front.length → StatementFollows front back j)
    (h : read (front ++ back) bodyItem i = .ok v n) (hn : n ≤ front.length) (htail : Tail front n) :
    read front bodyItem i = .ok v n := by
  refine skip_carried hi (cuts_ws hi).follows h hn fun w k hik _ hk hchoice => ?_
  refine (firm_newline hk).agrees.choice_carried hn hchoice fun hchoice => ?_
  refine (cuts_comment hk).agrees.choice_carried hn hchoice fun hchoice => ?_
  refine (firm_blockComment hk).agrees.choice_carried hn hchoice fun hchoice => ?_
  refine choice_last hchoice fun hterminated => ?_
  refine keep_carried hk hterminated hn fun m _ hm hfirst hend => ?_
  have hend' := end_of_whole hm hend hn htail
  have helse := else_misses_before_end hm hend' htail.noElse
  exact ⟨hstatement k hik hk w m n hfirst hend hn helse, hend'⟩

theorem items_of_whole (hstatement : ∀ j, i ≤ j → j ≤ front.length → StatementFollows front back j)
    (h : Chain (front ++ back) bodyItem i nodes last) (hlast : last ≤ front.length)
    (htail : Tail front last) : Chain front bodyItem i nodes last := by
  refine (h.carried (Tail front) (le_append hi) hlast (fun j v n hij hj hok hn htail => ?_) htail).1
  have hsame := item_of_whole hj (fun k hk => hstatement k (by omega)) hok hn htail
  exact ⟨hsame, htail.of_item hj ⟨v, hsame⟩⟩

omit hi in
theorem read_keep_keep {γ : Type} (p : Parser α) (q : Parser β) (r : Parser γ) :
    read text (p <* q <* r) i = read text (p <* (q *> r)) i := by
  rw [read_keep, read_keep, read_keep]
  cases read text p i with
  | ok v m =>
    dsimp only [Verdict.bind]
    rw [read_skip]
    cases read text q m <;> rfl
  | miss | dead => rfl

theorem Carries.braced {K : Nat → Prop} {p : Parser (List α → β)} {q : Parser α}
    (hp : Carries front back target K p i)
    (hclose : ∀ e n, e ≤ front.length → n ≤ front.length →
      Spans (front ++ back) (space *> closing "\x7d") e n →
      Spans target (space *> closing "\x7d") e n)
    (hmany : ∀ j vs e n, i ≤ j → (p.nullable (fun _ => false) = false → i < j) →
      j ≤ front.length → e ≤ front.length → n ≤ front.length →
      read (front ++ back) (.many q) j = .ok vs e →
      Spans (front ++ back) (space *> closing "\x7d") e n →
      read target (.many q) j = .ok vs e ∧ ¬K j) :
    Keeps front back target (.seq p (.many q) <* space <* closing "\x7d") i := by
  intro v n hok hn
  rw [read_keep_keep] at hok ⊢
  refine .inl (keep_carried hi hok hn fun e _ he hseq hclosed => ⟨?_, hclose e n he hn hclosed⟩)
  rw [read_seq] at hseq ⊢
  obtain ⟨f, j, hfirst, hrepeat⟩ := bind_eq_ok.mp hseq
  obtain ⟨vs, hvs, rfl⟩ := map_eq_ok.mp hrepeat
  have hfirst' := read_bounds hfirst (le_append hi)
  have hj : j ≤ front.length := Nat.le_trans (read_bounds hvs hfirst'.2.1).1 he
  obtain ⟨hsame, hK⟩ := hmany j vs e n hfirst'.1 hfirst'.2.2 hj he hn hvs hclosed
  rw [(hp f j hfirst hj).resolve_right hK]
  dsimp only [Verdict.bind]
  rw [hsame]
  rfl

theorem item_misses_at_end (h : read (front ++ back) bodyItem i = .miss)
    (hspace : Spans front space i k) (hclose : Spans front (closing "\x7d") k n) :
    read front bodyItem i = .miss := by
  obtain ⟨v, hblanks⟩ := ws_spans hi
  generalize i + _ = m at hblanks
  have hm := (read_bounds hblanks hi).2.1
  have hrest : Spans front (space *> closing "\x7d") m n :=
    spans_skip.mpr ⟨k, space_after_ws hi ⟨v, hblanks⟩ hspace, hclose⟩
  obtain ⟨u, hblanks'⟩ : Spans (front ++ back) ws i m :=
    Spans.whole_ws ⟨v, hblanks⟩ hi hrest (by decide)
  rw [bodyItem, read_skip] at h ⊢
  rw [hblanks'] at h
  rw [hblanks]
  dsimp only [Verdict.bind] at h ⊢
  simp only [read_choice_cons, read_choice_nil, orElse_eq_miss, and_true] at h ⊢
  have hline := (cuts_comment hm).eq_miss h.2.1
  have hblock := (firm_blockComment hm).eq_miss h.2.2.1
  exact ⟨(firm_newline hm).eq_miss h.1, hline, hblock,
    statement_misses_at_end hi ⟨v, hblanks⟩ hspace hclose hline hblock⟩

theorem Follows.items {p : Parser (List Node → β)} (hp : Follows front back p i)
    (hstatement : ∀ j, i ≤ j → (p.nullable (fun _ => false) = false → i < j) → j ≤ front.length →
      StatementFollows front back j) :
    Follows front back (.seq p (.many bodyItem) <* space <* closing "\x7d") i := by
  refine Carries.braced hi hp (fun e n he hn hclosed => (follows_closed _ he).spans hclosed hn)
    fun j nodes e n hij hlt hj he hn hread hclosed => ⟨?_, id⟩
  obtain ⟨hchain, hmiss⟩ := chain_of_many (le_append hj) rfl hread
  obtain ⟨k, hspace, hclose⟩ := spans_skip.mp ((follows_closed _ he).spans hclosed hn)
  have hlater : ∀ j', j ≤ j' → j' ≤ front.length → StatementFollows front back j' := by
    intro j' hj' hle
    refine hstatement j' (Nat.le_trans hij hj') (fun hn => ?_) hle
    exact Nat.lt_of_lt_of_le (hlt hn) hj'
  have hitems := items_of_whole hj hlater hchain he (Tail.of_closing he hspace hclose)
  exact hitems.many hj rfl (item_misses_at_end he hmiss hspace hclose)

end AgentLang.Grammar
