import AgentLang.Proofs.Grammar.CutQuotation
import AgentLang.Proofs.Grammar.Overlap

/-!
# Cutting expressions and types

For every kind of expression, the places where it may end early when the text is cut, and why it
cannot be closed there.
-/

namespace AgentLang.Grammar

open Verdict
open Parse.Parser (between choice lit named nullable word)

variable {α : Type} {front back : List Char} {K : Nat → Prop} {i n : Nat}

/-! ### Lists -/

/-- Nothing closes a list at the place, also not behind a comma. -/
def Unclosed (front : List Char) (close : String) (n : Nat) : Prop :=
  read front (space *> closing close) n = .miss ∧
    ∀ m, Spans front comma n m → read front (space *> closing close) m = .miss

/-- The first characters of free space, commas and closing marks. -/
def separators (close : Char) : List Char :=
  [' ', '\t', '\r', '\n', '/', ',', close]

theorem Spans.of_whole (hspans : Spans front p i n) (h : Cuts front back K p i)
    (hopen : harmless p = true) : Spans (front ++ back) p i n ∨ K n := by
  obtain ⟨v, hread⟩ := hspans
  rcases h.of_ok hread with hwhole | hdead | ⟨hK, -⟩
  · exact .inl ⟨v, hwhole⟩
  · exact absurd hdead (read_ne_dead hopen)
  · exact .inr hK

theorem Spans.whole (hspans : Spans front p i n) (h : Firm front back p i)
    (hopen : harmless p = true) : Spans (front ++ back) p i n :=
  (hspans.of_whole h hopen).resolve_right id

theorem Spans.whole_ws (hws : Spans front ws i n) (hi : i ≤ front.length) (hp : Spans front p n m)
    (hshut : shut [] p = true) : Spans (front ++ back) ws i n := by
  refine (hws.of_whole (cuts_ws hi) rfl).resolve_right fun hends => ?_
  exact hends.not_spans (hws.inside hi) hshut hp

theorem Spans.whole_space (hspace : Spans front space i n) (hi : i ≤ front.length)
    (hp : Spans front p n m) (hshut : shut ['/'] p = true) : Spans (front ++ back) space i n := by
  refine (hspace.of_whole (cuts_space hi) rfl).resolve_right fun hsettled => ?_
  exact hsettled.1.not_spans (hspace.inside hi) hshut hp

section

variable {close : String} {c : Char}

/-- Nothing is closed before what is no free space and no closing mark. -/
theorem unclosed_of_heads (hclose : close.toList = [c]) (hn : n ≤ front.length)
    (h : ∀ d, (front.drop n).head? = some d → d ∉ separators c) :
    read front (space *> closing close) n = .miss := by
  refine read_eq_miss hn ?_ (by simp [closing, named, nullable, hclose])
  cases hhead : (front.drop n).head? with
  | none => rfl
  | some d =>
    have hd := h d hhead
    simp only [separators, List.mem_cons, List.not_mem_nil, or_false, not_or] at hd
    simp [begins, closing, hclose, space, Shape.space, Shape.among, Shape.lineComment,
      Shape.blockComment, Parse.Pattern.begins, hd]

theorem unclosed_of_comma (hclose : close.toList = [c]) (hc : c ∉ ['/', ','])
    (hi : i ≤ front.length) (h : Spans (front ++ back) comma i n) :
    read front (space *> closing close) i = .miss := by
  by_contra hne
  obtain ⟨m, hspans⟩ := spans_of_ne_miss rfl hne
  obtain ⟨k, hspace, hclosing⟩ := spans_skip.mp hspans
  have hk := hspace.inside hi
  obtain ⟨v, hclosing⟩ := hclosing
  obtain ⟨hstarts, -⟩ := read_text_ok hk hclosing
  rw [hclose] at hstarts
  obtain ⟨tail, htail⟩ := List.isPrefixOf_iff_prefix.mp hstarts
  rcases hspace.of_whole (cuts_space hi : Cuts front back _ _ _) rfl with hwhole | hsettled
  · -- The same free space stands before the comma.
    obtain ⟨k', ⟨k'', hspace', hcomma⟩, -⟩ : ∃ k' , (∃ k'', Spans (front ++ back) space i k'' ∧
        Spans (front ++ back) (lit ",") k'' k') ∧ Spans (front ++ back) space k' n := by
      simpa [comma, symbol] using h
    obtain rfl := hwhole.unique hspace'
    obtain ⟨hcomma, -⟩ := spans_lit (le_append hk) hcomma
    obtain ⟨tail', htail'⟩ := List.isPrefixOf_iff_prefix.mp hcomma
    rw [drop_whole hk, ← htail] at htail'
    have hhead : ',' = c := (List.cons.inj htail').1
    exact hc (by simp [← hhead])
  · have := hsettled.1 c (by rw [← htail]; rfl)
    exact hc (by simpa using Or.inl (List.mem_singleton.mp this))

theorem not_separator (hi : i ≤ front.length) (hp : shut (separators c) p = true)
    (h : Spans (front ++ back) p i n) : ∀ d, (front.drop i).head? = some d → d ∉ separators c := by
  intro d hd hmem
  have hends : Ends (front ++ back) (separators c) i := by
    intro e he
    obtain ⟨rest, hrest⟩ := List.head?_eq_some_iff.mp hd
    rw [drop_whole hi, hrest] at he
    cases he
    exact hmem
  exact hends.not_spans (le_append hi) hp h

theorem comma_misses_at_item (hi : i ≤ front.length)
    (h : ∀ d, (front.drop i).head? = some d → d ∉ separators c) : read front comma i = .miss := by
  refine read_eq_miss hi ?_ rfl
  cases hhead : (front.drop i).head? with
  | none => rfl
  | some d =>
    have hd := h d hhead
    simp only [separators, List.mem_cons, List.not_mem_nil, or_false, not_or] at hd
    simp [begins, comma, symbol, space, Shape.space, Shape.among, Shape.lineComment,
      Shape.blockComment, Parse.Pattern.begins, hd]

theorem Settled.unclosed (hclose : close.toList = [c]) (hc : c ∉ ['/', ',']) (hn : n ≤ front.length)
    (h : Settled front n) : read front (space *> closing close) n = .miss := by
  obtain ⟨v, hstays⟩ := h.stays hn
  have hmiss : read front (closing close) n = .miss := by
    refine h.1.eq_miss hn ?_
    have hslash : '/' ≠ c := fun heq => hc (by simp [← heq])
    simp [shut, still, begins, closing, named, nullable, hclose,
      Parse.Parser.begins, hslash]
  rw [read_skip, hstays]
  exact hmiss

theorem cuts_list {p : Parser α} (hclose : close.toList = [c]) (hc : c ∉ ['/', ','])
    (hi : i ≤ front.length)
    (hp : ∀ j, i ≤ j → j ≤ front.length → Cuts front back (Ends front heads) p j)
    (hshut : shut (separators c) p = true) (hheads : shut heads (comma *> p) = true)
    (hcomma : shut heads comma = true) (hclosing : shut heads (space *> closing close) = true) :
    Cuts front back (Unclosed front close) (.sepBy p comma) i := by
  -- A place where an item ends early is no place to go on or to close the list.
  have hshort : ∀ j, j ≤ front.length → Ends front heads j →
      read front (comma *> p) j = .miss ∧ Unclosed front close j := by
    intro j hj hends
    refine ⟨hends.eq_miss hj hheads, hends.eq_miss hj hclosing, fun m hm => ?_⟩
    exact absurd hm (hends.not_spans hj hcomma)
  have hslash : shut ['/'] p = true := shut_mono hshut (by simp [separators])
  have hstep : ∀ j, i ≤ j → j ≤ front.length →
      Cuts front back (Ends front heads) (comma *> p) j := fun j hij hj =>
    Cuts.skip hj (cuts_comma hj) (fun m hm _ hle => hp m (Nat.le_trans hij hm) hle)
      (fun m hm hsettled => hsettled.closes hm hslash)
  refine Cuts.sepBy hi (hp i (Nat.le_refl i) hi) ?_ ?_ hshort
  · intro n hn hle
    refine Cuts.many hle rfl (fun j hj => hstep j (Nat.le_trans hn hj)) ?_ hshort
    intro j v m _ hj hok hm hmiss
    obtain ⟨k, hcommas, hitem⟩ := spans_skip.mp ⟨v, hok⟩
    refine ⟨unclosed_of_comma hclose hc hj hcommas, fun k' hk' => ?_⟩
    have hle' := hk'.inside hj
    rcases hk'.of_whole (cuts_comma hj) rfl with hwhole | hsettled
    · obtain rfl := hcommas.unique hwhole
      exact unclosed_of_heads hclose hle' (not_separator hle' hshut hitem)
    · exact hsettled.unclosed hclose hc hle'
  · intro v m hok hm hmiss
    have hnone := not_separator hi hshut ⟨v, hok⟩
    refine ⟨unclosed_of_heads hclose hi hnone, fun k hk => ?_⟩
    exact absurd (comma_misses_at_item hi hnone) hk.ne_miss

theorem Settled.closes_list (hclose : close.toList = [c]) (hc : c ∉ ['/', ','])
    (hn : n ≤ front.length) (hp : shut ['/'] p = true) (h : Settled front n) :
    Closes front back (Unclosed front close) (.sepBy p comma) n := by
  have hmiss : read front p n = .miss := h.1.eq_miss hn hp
  have hlist : read front (.sepBy p comma) n = .ok [] n := by rw [read_sepBy, hmiss]
  refine .inr ⟨fun m hm => read_certain rfl hm, [], n, hlist, h.unclosed hclose hc hn, ?_⟩
  intro m hm
  obtain ⟨k, ⟨k', hspace, hcomma⟩, -⟩ : ∃ k, (∃ k', Spans front space n k' ∧
      Spans front (lit ",") k' k) ∧ Spans front space k m := by
    simpa [comma, symbol] using hm
  obtain rfl := hspace.unique (h.stays hn)
  exact absurd hcomma (h.1.not_spans hn (by decide))

/-- A list behind its opening mark is never closed where it has been cut. -/
theorem Cuts.listed {p : Parser (List α → β)} {q : Parser α} (hclose : close.toList = [c])
    (hc : c ∉ ['/', ',']) (hi : i ≤ front.length) (hp : Cuts front back (Settled front) p i)
    (hq : Past front p i fun n => ∀ j, n ≤ j → j ≤ front.length →
      Cuts front back (Ends front H) q j)
    (hshut : shut (separators c) q = true) (hheads : shut H (comma *> q) = true)
    (hcomma : shut H comma = true) (hclosing : shut H (space *> closing close) = true) :
    Cuts front back (Unclosed front close) (.seq p (.sepBy q comma)) i :=
  Cuts.seq hi hp
    (fun n hin hlt hn => cuts_list hclose hc hn (hq n hin hlt hn) hshut hheads hcomma hclosing)
    fun _ hn hsettled => hsettled.closes_list hclose hc hn (shut_mono hshut (by simp [separators]))

theorem space_spans_some (hi : i ≤ text.length) : ∃ m, Spans text space i m :=
  spans_of_ne_miss rfl (read_certain rfl hi)

/-- What has not been closed is lost. -/
theorem Cuts.closed {p : Parser α} (hclose : close.toList = [c]) (hc : c ∉ ['/', ','])
    (hi : i ≤ front.length)
    (h : Cuts front back (fun n => read front (space *> closing close) n = .miss) p i) :
    Firm front back (p <* space <* closing close) i := by
  refine Cuts.keep hi (L := fun n => read front (closing close) n = .miss) ?_
    (fun n _ _ hn => firm_closing hn close) (fun n _ hmiss => .inl hmiss)
  -- Beyond free space the closing mark is missing.
  have hbehind : ∀ n m, read front (space *> closing close) n = .miss → Spans front space n m →
      read front (closing close) m = .miss := by
    rintro n m hmiss ⟨v, hspace⟩
    rw [read_skip, hspace] at hmiss
    exact hmiss
  refine Cuts.keep hi h (fun n _ _ hn => (cuts_space hn).mono fun m hm hsettled => ?_) ?_
  · exact hbehind m m (hsettled.unclosed hclose hc hm) (hsettled.stays hm)
  · intro n hn hmiss
    obtain ⟨m, v, hspace⟩ := space_spans_some hn
    exact .inr ⟨fun m hm => read_certain rfl hm, v, m, hspace, hbehind n m hmiss ⟨v, hspace⟩⟩

theorem Cuts.comma_closed {p : Parser α} (hclose : close.toList = [c]) (hc : c ∉ ['/', ','])
    (hi : i ≤ front.length) (h : Cuts front back (Unclosed front close) p i) :
    Cuts front back (fun n => read front (space *> closing close) n = .miss)
      (p <* .optional comma) i := by
  refine Cuts.keep hi h (fun n _ _ hn => ?_) ?_
  · exact Cuts.optional hn ((cuts_comma hn).mono fun m hm hsettled => hsettled.unclosed hclose hc hm)
      fun v m hok _ => unclosed_of_comma hclose hc hn ⟨v, hok⟩
  · rintro n hn ⟨hmiss, hcomma⟩
    obtain ⟨m, hoptional⟩ : ∃ m, Spans front (.optional comma) n m :=
      spans_of_ne_miss rfl (read_certain rfl hn)
    obtain ⟨v, hread⟩ := hoptional
    refine .inr ⟨fun m hm => read_certain rfl hm, v, m, hread, ?_⟩
    rcases spans_optional.mp ⟨v, hread⟩ with hspans | ⟨-, rfl⟩
    · exact hcomma m hspans
    · exact hmiss

end

/-! ### Calls, arrays and objects -/

/-- How an operand may go on. -/
def nounEnds : List Char := ['.', '[', '(', '"']

/-- The property holds at all places of the beginning behind this one. -/
abbrev Beyond (front : List Char) (i : Nat) (P : Nat → Prop) : Prop :=
  ∀ j, i < j → j ≤ front.length → P j

theorem firm_callBody (ht : Tight front back) (hi : i ≤ front.length)
    (hargument : Beyond front i (Cuts front back (Ends front nounEnds) argument)) :
    Firm front back callBody i := by
  refine (Cuts.mono (Cuts.listed rfl (by decide) hi (Firm.keep_space hi ?_)
    (fun n _ hlt _ j hj => hargument j (Nat.lt_of_lt_of_le (hlt rfl) hj)) (by decide)
    (by decide) (by decide) (by decide)) fun n _ h => h.1).closed rfl (by decide) hi
  exact Firm.keep hi (Cuts.map (firm_identifier ht hi) _) fun n _ _ hn => firm_lit hn "("

theorem firm_bracketed {p : Parser α} (hclose : close.toList = [c]) (hc : c ∉ ['/', ','])
    (hopening : opening.toList.isEmpty = false) (hi : i ≤ front.length)
    (hp : Beyond front i (Cuts front back (Ends front nounEnds) p))
    (hshut : shut (separators c) p = true) (hheads : shut nounEnds (comma *> p) = true)
    (hclosing : shut nounEnds (space *> closing close) = true) :
    Firm front back
      (lit opening *> space *> .sepBy p comma <* .optional comma <* space <* closing close) i := by
  refine (Cuts.comma_closed hclose hc hi (Cuts.listed hclose hc hi
    (Cuts.map (Firm.skip_space hi (firm_lit hi opening)) _) (fun n _ hlt _ j hj => hp j ?_)
    hshut hheads (by decide) hclosing)).closed hclose hc hi
  exact Nat.lt_of_lt_of_le (hlt (by simp [nullable, hopening])) hj

variable (ht : Tight front back) (hi : i ≤ front.length)
include ht hi

omit ht in
theorem firm_arrayBody (hitem : Beyond front i (Cuts front back (Ends front nounEnds) item)) :
    Firm front back arrayBody i :=
  Cuts.map (firm_bracketed rfl (by decide) rfl hi hitem (by decide) (by decide) (by decide)) _

theorem firm_objectKey : Firm front back objectKey i :=
  Cuts.alt_of_inside hi (firm_identifier ht hi)
    (Cuts.last (Cuts.map (firm_enclosed hi rfl _) _)) rfl rfl
    (fun _ _ hok hn => identifier_inside ht hi hok hn)

theorem cuts_objectEntry (hitem : Beyond front i (Cuts front back (Ends front nounEnds) item)) :
    Cuts front back (Ends front nounEnds) objectEntry i := by
  refine Cuts.seq_shut hi (Cuts.ends ?_) (by decide) fun n _ hlt hn => hitem n (hlt rfl) hn
  refine Firm.keep_space hi (Cuts.keep_lit hi (Cuts.ends (Firm.keep_space hi ?_)) (by decide))
  exact Cuts.map (firm_objectKey ht hi) _

theorem firm_objectBody (hitem : Beyond front i (Cuts front back (Ends front nounEnds) item)) :
    Firm front back objectBody i :=
  firm_bracketed rfl (by decide) rfl hi
    (fun j hj hle => cuts_objectEntry ht hle fun k hk => hitem k (by omega))
    (by decide) (by decide) (by decide)

/-! ### Prompts and literals -/

theorem firm_promptBody (hobject : Beyond front i (Firm front back object)) :
    Firm front back promptBody i := by
  have hllm : Firm front back llmPrompt i := by
    refine Cuts.closed rfl (by decide) hi (Firm.seq hi (Cuts.map ?_ _) fun n _ hlt hn => ?_)
    · exact Cuts.skip_shut hi (Firm.skip_space hi (firm_lit hi _)).ends (by decide)
        fun n _ _ hn => firm_stringSegments ht hn
    · have hcomma : Firm front back (comma *> object) n :=
        Cuts.skip_shut hn (cuts_comma hn).ends (by decide)
          fun m hm _ hle => hobject m (Nat.lt_of_lt_of_le (hlt rfl) hm) hle
      refine Cuts.optional hn hcomma.cuts fun v m hok _ => ?_
      obtain ⟨k, hcomma, -⟩ := spans_skip.mp ⟨v, hok⟩
      exact unclosed_of_comma rfl (by decide) hn hcomma
  refine Cuts.alt_of_heads ['\x60'] hi (firm_backtickPrompt ht hi) (Cuts.last hllm) rfl ?_
    (by decide) rfl
  intro c hc
  simpa [begins, backtickPrompt, quoted, between] using hc

theorem firm_number : Firm front back number i :=
  Cuts.call (Cuts.map (firm_number_token ht hi _) _)

theorem firm_lineScalar :
    Firm front back (choice [stringLiteral, number, boolean]) i := by
  have hboolean : Firm front back (choice [boolean]) i :=
    Cuts.last (Cuts.map (firm_truth ht hi) _)
  have hnumber : Firm front back (choice [number, boolean]) i := by
    refine Cuts.alt_of_inside hi (firm_number ht hi) hboolean rfl rfl fun v n hok hn => ?_
    rw [read_number, numberLiteral, read_fmap, map_eq_ok] at hok
    obtain ⟨v, hok, -⟩ := hok
    exact number_inside ht hi hok hn
  refine Cuts.alt_of_heads ['"'] hi (firm_stringLiteral ht hi) hnumber rfl (fun c hc => ?_)
    (by decide) rfl
  simpa [begins, stringLiteral, stringSegments, quoted, between] using hc

theorem cuts_scalar : Cuts front back (Ends front ['"']) scalar i := by
  refine Cuts.call (Cuts.alt (firm_multilineString ht hi).cuts (firm_lineScalar ht hi).cuts
    (read_ne_dead rfl) ?_)
  -- Where three quotes stand, a string on one line takes two of them.
  intro v n v' n' hmultiline _ hother _
  have hstarts : "\"\"\"".toList.isPrefixOf ((front ++ back).drop i) = true := by
    have hspans : Spans (front ++ back) multilineString i n := ⟨v, hmultiline⟩
    simp only [multilineString, quoted, between, spans_fmap, spans_keep,
      spans_skip] at hspans
    obtain ⟨_, ⟨_, hquotes, -⟩, -⟩ := hspans
    exact (spans_lit (le_append hi) hquotes).1
  have hends : Ends (front ++ back) ['"'] i := ends_of_starts hstarts
  rcases spans_choice_cons.mp ⟨v', hother⟩ with hspans | ⟨-, hspans⟩
  · obtain ⟨rfl, hends⟩ := string_of_quotes (le_append hi) hstarts (spans_fmap.mp hspans)
    exact hends.of_whole
  · exact absurd hspans (hends.not_spans (le_append hi) (by decide))

theorem cuts_literalBody (hprompt : Firm front back prompt i) :
    Cuts front back (Ends front ['"', '(']) literalBody i := by
  have hvariable : Firm front back (choice [variableName]) i :=
    Cuts.last (firm_variableName ht hi)
  have hscalar : Cuts front back (Ends front ['"', '(']) (choice [scalar, variableName]) i := by
    refine Cuts.alt ((cuts_scalar ht hi).mono fun n _ h => h.mono (by simp)) hvariable.cuts
      (read_ne_dead rfl) ?_
    intro v n v' n' hscalar hn hname hn'
    have hname : Spans (front ++ back) identifier i n' :=
      spans_fmap.mp (spans_choice_one.mp ⟨v', hname⟩)
    have := scalar_name (le_append hi) hname ⟨v, hscalar⟩
    omega
  refine Cuts.alt hprompt.cuts hscalar (read_ne_dead rfl) ?_
  intro v n v' n' hok _ hother _
  exact (prompt_rest (le_append hi) ⟨v, hok⟩ ⟨v', hother⟩).of_whole.mono (by simp)

/-! ### Access chains -/

omit ht in
theorem firm_methodStep (hcall : Beyond front i (Firm front back call)) :
    Firm front back methodStep i :=
  Cuts.map (Firm.skip hi (firm_lit hi ".") fun n _ hlt hn => hcall n (hlt rfl) hn) _

theorem firm_plainStep (hitem : Beyond front i (Cuts front back (Ends front nounEnds) item)) :
    Firm front back (choice [propertyStep, indexStep]) i := by
  have hproperty : Firm front back propertyStep i :=
    Cuts.map (Firm.skip hi (firm_lit hi ".") fun n _ _ hn => firm_identifier ht hn) _
  have hindex : Firm front back indexStep i := by
    refine Cuts.map (Cuts.closed rfl (by decide) hi (Cuts.skip_shut hi
      (Firm.skip_space hi (firm_lit hi _)).ends (by decide) fun n _ hlt hn => ?_)) _
    exact (hitem n (hlt rfl) hn).mono fun m hm h => h.eq_miss hm (by decide)
  refine Cuts.alt_of_heads ['.'] hi hproperty (Cuts.last hindex) rfl (fun c hc => ?_)
    (by decide) rfl
  simpa [begins, propertyStep] using hc

theorem cuts_chainStep (hcall : Beyond front i (Firm front back call))
    (hitem : Beyond front i (Cuts front back (Ends front nounEnds) item)) :
    Cuts front back (Ends front ['(']) chainStep i :=
  Cuts.alt (firm_methodStep hi hcall).cuts (firm_plainStep ht hi hitem).cuts (read_ne_dead rfl)
    fun v _ v' _ hok _ hother _ =>
      (method_rest (le_append hi) ⟨v, hok⟩ ⟨v', hother⟩).of_whole

theorem cuts_accessBody (hhere : Firm front back call i)
    (hcall : Beyond front i (Firm front back call))
    (hitem : Beyond front i (Cuts front back (Ends front nounEnds) item)) :
    Cuts front back (Ends front ['.', '[', '(']) accessBody i := by
  have hbase : Cuts front back (Ends front ['(']) accessBase i := by
    refine Cuts.alt (Firm.cuts (Cuts.map hhere _))
      (Firm.cuts (Cuts.last (firm_variableName ht hi))) (read_ne_dead rfl) ?_
    intro v n v' n' hok _ hother _
    have hcall : Spans (front ++ back) callExpr i n := ⟨v, hok⟩
    have hname : Spans (front ++ back) identifier i n' :=
      spans_fmap.mp (spans_choice_one.mp ⟨v', hother⟩)
    exact (call_rest (le_append hi) (spans_fmap.mp hcall) hname).of_whole
  refine Cuts.seq hi (Cuts.map hbase _) (fun n _ hlt hn => ?_) (fun n hn hends => ?_)
  · refine Cuts.many1 hn rfl (fun j hj hle => cuts_chainStep ht hle (fun k hk => hcall k ?_)
      (fun k hk => hitem k ?_)) ?_ ?_
    · have := hlt rfl
      omega
    · have := hlt rfl
      omega
    · intro j v m _ hj hok _ _
      exact (chain_ends (le_append hj) ⟨v, hok⟩).of_whole.mono (by simp)
    · intro j hj hends
      exact ⟨hends.eq_miss hj (by decide), hends.mono (by simp)⟩
  · refine .inl ?_
    have hmiss : read front chainStep n = .miss := hends.eq_miss hn (by decide)
    rw [read_many1_eq, read_many, hmiss]
    rfl

/-! ### Operands -/

omit ht

theorem cuts_simple (hcall : Firm front back call i)
    (haccess : Cuts front back (Ends front ['.', '[', '(']) access i)
    (hliteral : Cuts front back (Ends front ['"', '(']) literal i) :
    Cuts front back (Ends front nounEnds) simple i := by
  have hrest : Cuts front back (Ends front nounEnds) (choice [callExpr, literal]) i := by
    refine Cuts.alt (Firm.cuts (Cuts.map hcall _))
      (Cuts.last (hliteral.mono fun n _ h => h.mono (by simp [nounEnds]))) (read_ne_dead rfl) ?_
    intro v n v' n' hok hn hother hn'
    have hcall : Spans (front ++ back) callExpr i n := ⟨v, hok⟩
    have hother : Spans (front ++ back) (choice [literal]) i n' := ⟨v', hother⟩
    simp only [spans_choice_one] at hother
    rcases call_literal (le_append hi) (spans_fmap.mp hcall) hother with rfl | hends
    · omega
    · exact hends.of_whole.mono (by simp [nounEnds])
  refine Cuts.alt (haccess.mono fun n _ h => h.mono (by simp [nounEnds])) hrest (read_ne_dead rfl) ?_
  intro v n v' n' hok _ hother _
  exact (access_rest (le_append hi) ⟨v, hok⟩ ⟨v', hother⟩).of_whole.mono (by simp [nounEnds])

theorem cuts_argumentBody (hprompt : Firm front back prompt i)
    (hsimple : Cuts front back (Ends front nounEnds) simple i) :
    Cuts front back (Ends front nounEnds) argumentBody i := by
  refine Cuts.alt hprompt.cuts hsimple (read_ne_dead rfl) ?_
  intro v n v' n' hok hn hother hn'
  rcases simple_of_prompt (le_append hi) ⟨v, hok⟩ ⟨v', hother⟩ with rfl | ⟨hle, -⟩
  · omega
  · omega

theorem cuts_noun (hobject : Firm front back object i) (harray : Firm front back array i)
    (hargument : Cuts front back (Ends front nounEnds) argumentBody i) :
    Cuts front back (Ends front nounEnds)
      (choice [prompt, access, callExpr, objectExpr, array, literal]) i := by
  refine Cuts.congr (q := .alt objectExpr (.alt array argumentBody)) (fun text htext => ?_) hi ?_
  · rw [read_noun htext, read_alt, read_alt]
  · refine Cuts.alt_of_heads ['\x7b'] hi (Firm.cuts (Cuts.map hobject _))
      (Cuts.alt_of_heads ['['] hi harray.cuts hargument rfl (fun c hc => ?_) (by decide) rfl) rfl
      (fun c hc => ?_) (by decide) rfl
    · have hbody : arrayBody.begins (opens (some c) 6) (some c) = true := hc
      simpa [arrayBody] using hbody
    · have hbody : objectBody.begins (opens (some c) 6) (some c) = true := hc
      simpa [objectBody] using hbody

/-! ### Binary operations -/

theorem cuts_operators (ops : List BinaryOp) :
    Cuts front back (Ends front []) (operators ops) i := by
  have hlength : ∀ op : BinaryOp, 1 ≤ op.toText.toList.length ∧ op.toText.toList.length ≤ 2 := by
    intro op
    cases op <;> decide
  have hopen : ∀ ops, harmless (operators ops) = true := by
    intro ops
    induction ops with
    | nil => rfl
    | cons op ops ih => exact ih
  have hmoves : ∀ ops, (operators ops).nullable (fun _ => false) = false := by
    intro ops
    induction ops with
    | nil => rfl
    | cons op ops ih =>
      have hop : op.toText.toList.isEmpty = false := by cases op <;> decide
      change (op.toText.toList.isEmpty || (operators ops).nullable _) = false
      rw [hop, ih]
      rfl
  induction ops with
  | nil => exact Cuts.fail
  | cons op ops ih =>
    refine Cuts.alt (Firm.cuts (Cuts.map (firm_lit hi _) _)) ih (read_ne_dead (hopen ops)) ?_
    -- Of an operator with two characters, another one may take the first.
    intro v n v' n' hop hn hother hn'
    have hspans : Spans (front ++ back) ((fun _ => op) <$> lit op.toText) i n := ⟨v, hop⟩
    have := (spans_lit (le_append hi) (spans_fmap.mp hspans)).2
    have := hlength op
    have := (read_bounds hother (le_append hi)).2.2 (hmoves ops)
    exact ends_of_le (by omega)

theorem cuts_operator : Cuts front back (Ends front []) operator i :=
  Cuts.label (cuts_operators hi BinaryOp.all) _

theorem cuts_binaryBody (hhere : Cuts front back (Ends front nounEnds) operand i)
    (hlater : Beyond front i (Cuts front back (Ends front nounEnds) operand)) :
    Cuts front back (Ends front nounEnds) binaryBody i := by
  refine Cuts.seq_shut hi (H := []) ?_ (by decide) fun n _ hlt hn => hlater n (hlt rfl) hn
  refine Cuts.keep hi (L := Ends front []) ?_ (fun n _ _ hn => cuts_ws hn)
    (fun n hn h => h.closes_still hn rfl (by decide) h)
  refine Cuts.seq_shut hi (H := nounEnds) ?_ (by decide) fun n _ _ hn => cuts_operator hn
  refine Cuts.keep hi (Cuts.map hhere _) (fun n _ _ hn => (cuts_ws hn).mono ?_)
    (fun n hn h => h.closes_still hn rfl (by decide) h)
  exact fun _ _ h => h.mono nofun

/-- A binary operation that has been cut cannot be closed behind its first operand. -/
theorem unclosed_of_binary (hbinary : Spans (front ++ back) binary i n)
    (hsimple : Spans (front ++ back) simple i m) (hm : m ≤ front.length) :
    read front (space *> closing ")") m = .miss := by
  by_contra hne
  obtain ⟨e, hclosed⟩ := spans_of_ne_miss rfl hne
  obtain ⟨k, hspace, hclose⟩ := spans_skip.mp hclosed
  have hk := hspace.inside hm
  obtain ⟨k₁, k₂, k₃, hws, hoperator, hws', hoperand⟩ := binary_simple (le_append hi) hbinary hsimple
  have hspace' : Spans (front ++ back) space m k := hspace.whole_space hm hclose (by decide)
  obtain rfl := space_before_operator (le_append hm) hws hoperator hws' hoperand hspace'
  have hclose' : Spans (front ++ back) (closing ")") k e := hclose.whole (firm_closing hk _) rfl
  exact (closing_ends (le_append hk) hclose').clash (le_append hk) hoperator (by decide)

theorem cuts_conditionBody (hbinary : Cuts front back (Ends front nounEnds) binary i)
    (hsimple : Cuts front back (Ends front nounEnds) simple i) :
    Cuts front back (fun n => read front (space *> closing ")") n = .miss) conditionBody i := by
  have hunclosed : ∀ n, n ≤ front.length → Ends front nounEnds n →
      read front (space *> closing ")") n = .miss := fun n hn h => h.eq_miss hn (by decide)
  refine Cuts.alt (hbinary.mono hunclosed) (hsimple.mono hunclosed) (read_ne_dead rfl) ?_
  intro v n v' n' hok _ hother hn'
  exact unclosed_of_binary hi ⟨v, hok⟩ ⟨v', hother⟩ hn'

end AgentLang.Grammar
