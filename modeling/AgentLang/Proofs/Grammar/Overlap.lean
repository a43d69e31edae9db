import AgentLang.Proofs.Grammar.CutLexeme

/-!
# Where alternatives overlap

Several alternatives of an expression may read something at the same place of a text. What one of
them has read then says where the others end.
-/

namespace AgentLang.Grammar

open List
open Verdict
open Parse (Pattern Engine)
open Parse.Parser (lit word)

variable {text : List Char} {i n : Nat}

/-! ### Names and words -/

theorem match?_star_one (accepts : Char → Bool) (rest : List Char) :
    (Pattern.star (.one accepts)).match? rest = some (rest.takeWhile accepts).length := by
  have hrepeated : Pattern.repeated (Pattern.match? (.one accepts)) rest 0 =
      (rest.takeWhile accepts).length := by
    induction rest with
    | nil => rfl
    | cons c rest ih =>
      rw [Pattern.repeated]
      by_cases hc : accepts c = true
      · have hone : (Pattern.one accepts).match? (c :: rest) = some 1 := if_pos hc
        rw [hone, takeWhile_cons_of_pos hc, length_cons]
        exact congrArg (· + 1) ih
      · have hone : (Pattern.one accepts).match? (c :: rest) = none := if_neg hc
        rw [hone, takeWhile_cons_of_neg hc]
        rfl
  rw [Pattern.match?, hrepeated]

theorem match?_one_star (hc : start c = true) (accepts : Char → Bool) (rest : List Char) :
    (Pattern.one start ++ .star (.one accepts)).match? (c :: rest) =
      some (1 + (rest.takeWhile accepts).length) := by
  have hone : (Pattern.one start).match? (c :: rest) = some 1 := if_pos hc
  change Option.bind ((Pattern.one start).match? (c :: rest)) _ = _
  rw [hone]
  change Option.map (1 + ·) ((Pattern.star (.one accepts)).match? rest) = _
  rw [match?_star_one]
  rfl

theorem read_identifier (hi : i ≤ text.length) (hrest : text.drop i = c :: rest)
    (hc : (c.isAlpha || c == '_') = true) :
    ∃ v, read text identifier i =
      .ok v (i + (1 + (rest.takeWhile Engine.isWordChar).length)) := by
  have hmatch : Shape.identifier.match? (c :: rest) =
      some (1 + (rest.takeWhile Engine.isWordChar).length) :=
    match?_one_star hc Engine.isWordChar rest
  have hread := read_token hi Shape.identifier "identifier"
  rw [hrest, hmatch] at hread
  exact ⟨_, hread⟩

theorem read_identifier_of_word (hi : i ≤ text.length)
    (h : read text (.keyword (c :: rest) name) i = .ok v n) (hstart : c.isAlpha = true)
    (hrest : rest.all Engine.isWordChar = true) : ∃ v, read text identifier i = .ok v n := by
  rw [read_keyword hi] at h
  split at h
  next hstarts =>
    cases h
    obtain ⟨tail, htail⟩ := isPrefixOf_iff_prefix.mp hstarts.1
    obtain ⟨v, hread⟩ := read_identifier hi htail.symm (by simp [hstart])
    refine ⟨v, hread.trans ?_⟩
    have hends : tail.takeWhile Engine.isWordChar = [] := by
      have hnext := hstarts.2
      rw [← htail, drop_left] at hnext
      cases tail with
      | nil => rfl
      | cons d tail => exact takeWhile_cons_of_neg (by simpa using hnext)
    rw [append_eq, takeWhile_append_of_pos (all_eq_true.mp hrest), hends, append_nil,
      length_cons, Nat.add_comm 1]
  next => cases h

theorem not_decimal_of_start (hc : (c.isAlpha || c == '_') = true) : Text.isDecimal c = false := by
  have hascii : c.toNat < 0x80 ∧ c.isDigit = false := by
    rcases Bool.or_eq_true_iff.mp hc with hc | hc
    · simp only [Char.isAlpha, Char.isUpper, Char.isLower, Char.isDigit, Bool.or_eq_true,
        Bool.and_eq_true, decide_eq_true_eq, UInt32.le_iff_toNat_le, ge_iff_le, Bool.and_eq_false_iff,
        decide_eq_false_iff_not, Char.toNat] at hc ⊢
      simp at hc ⊢
      omega
    · rw [eq_of_beq hc]
      decide
  simp [Text.isDecimal, Text.digitValue?, hascii.1, hascii.2]

/-! ### Calls, prompts and literals -/

theorem Spans.ends (heads : List Char) (h : Spans text p i n) (hi : i ≤ text.length)
    (hp : p.nullable (fun _ => false) = false) (hheads : ∀ c, begins (some c) p = true →
      c ∈ heads) :
    Ends text heads i := by
  obtain ⟨v, h⟩ := h
  exact ends_of_read heads h hi hp hheads

theorem spans_of_ne_miss (hopen : harmless p = true) (h : read text p i ≠ .miss) :
    ∃ n, Spans text p i n := by
  cases hread : read text p i with
  | ok v n => exact ⟨n, v, hread⟩
  | miss => exact absurd hread h
  | dead => exact absurd hread (read_ne_dead hopen)

theorem Ends.not_spans (h : Ends text heads i) (hi : i ≤ text.length) (hp : shut heads p = true) :
    ¬Spans text p i n :=
  fun hspans => hspans.ne_miss (h.eq_miss hi hp)

theorem Ends.clash (h : Ends text heads i) (hi : i ≤ text.length) (hspans : Spans text p i n)
    (hp : shut heads p = true) : False :=
  h.not_spans hi hp hspans

variable (hi : i ≤ text.length)
include hi

theorem spans_lit {literal : String} (h : Spans text (lit literal) i n) :
    literal.toList.isPrefixOf (text.drop i) = true ∧ n = i + literal.toList.length := by
  obtain ⟨v, h⟩ := h
  exact read_text_ok hi h

omit hi in
theorem call_spans (h : Spans text call i n) : ∃ m m₁ m₂ m₃ m₄, Spans text identifier i m ∧
    Spans text (lit "(") m m₁ ∧ Spans text space m₁ m₂ ∧
    Spans text (.sepBy argument comma) m₂ m₃ ∧ Spans text space m₃ m₄ ∧
    Spans text (closing ")") m₄ n := by
  have hbody := (spans_congr read_callRule).mp h
  simp only [callBody, spans_keep, spans_ap, spans_fmap] at hbody
  obtain ⟨m₄, ⟨m₃, ⟨m₂, ⟨m₁, ⟨m, hname, hopen⟩, hspace⟩, hlist⟩, hspace'⟩, hclose⟩ := hbody
  exact ⟨m, m₁, m₂, m₃, m₄, hname, hopen, hspace, hlist, hspace', hclose⟩

theorem call_name (h : Spans text call i n) :
    ∃ m, Spans text identifier i m ∧ Ends text ['('] m := by
  obtain ⟨m, m₁, -, -, -, hname, hopen, -⟩ := call_spans h
  have hm := hname.inside hi
  exact ⟨m, hname, hopen.ends ['('] hm rfl fun c hc => by simpa [begins] using hc⟩

theorem call_rest (hcall : Spans text call i n) (hname : Spans text identifier i m) :
    Ends text ['('] m := by
  obtain ⟨m', hname', hends⟩ := call_name hi hcall
  exact hname'.unique hname ▸ hends

omit hi in
theorem llm_spans (h : Spans text llmPrompt i n) : ∃ m m₁ m₂ m₃ m₄, Spans text (lit "llm(") i m ∧
    Spans text space m m₁ ∧ Spans text stringSegments m₁ m₂ ∧
    Spans text (.optional (comma *> object)) m₂ m₃ ∧ Spans text space m₃ m₄ ∧
    Spans text (closing ")") m₄ n := by
  simp only [llmPrompt, spans_keep, spans_ap, spans_fmap, spans_skip] at h
  obtain ⟨m₄, ⟨m₃, ⟨m₂, ⟨m₁, ⟨m, hllm, hspace⟩, hstring⟩, hobject⟩, hspace'⟩, hclose⟩ := h
  exact ⟨m, m₁, m₂, m₃, m₄, hllm, hspace, hstring, hobject, hspace', hclose⟩

theorem llm_name (h : Spans text (lit "llm(") i n) :
    Spans text identifier i (i + 3) ∧ Ends text ['('] (i + 3) ∧ n = i + 4 := by
  obtain ⟨hstarts, hn⟩ := spans_lit hi h
  obtain ⟨tail, htail⟩ := isPrefixOf_iff_prefix.mp hstarts
  have hdrop : text.drop (i + 3) = '(' :: tail := by
    rw [← drop_drop, ← htail]
    rfl
  refine ⟨read_identifier hi htail.symm (by decide), ?_, hn⟩
  intro c hc
  rw [hdrop] at hc
  cases hc
  exact mem_cons_self

theorem prompt_cases (h : Spans text prompt i n) :
    Ends text ['\x60'] i ∨ Spans text llmPrompt i n := by
  have hbody := (spans_congr read_prompt).mp h
  simp only [promptBody, spans_choice_more, spans_choice_one] at hbody
  rcases hbody with hbacktick | ⟨-, hllm⟩
  · refine .inl (hbacktick.ends _ hi rfl fun c hc => ?_)
    simpa [begins, backtickPrompt, quoted, Parse.Parser.between] using hc
  · exact .inr hllm

/-- Where a name stands, a prompt is a call of the model, and the name ends before the
parenthesis. -/
theorem prompt_name (hname : Spans text identifier i m) (h : Spans text prompt i n) :
    Spans text llmPrompt i n ∧ Ends text ['('] m := by
  rcases prompt_cases hi h with hbacktick | hllm
  · exact (hbacktick.clash hi hname (by decide)).elim
  · obtain ⟨_, _, _, _, _, hopen, -⟩ := llm_spans hllm
    obtain ⟨hname', hparen, -⟩ := llm_name hi hopen
    exact ⟨hllm, hname'.unique hname ▸ hparen⟩

theorem name_head (h : Spans text identifier i m) :
    ∃ c rest, text.drop i = c :: rest ∧ (c.isAlpha || c == '_') = true := by
  cases hrest : text.drop i with
  | nil =>
    have hend : text.length ≤ i := drop_eq_nil_iff.mp hrest
    have hends : Ends text [] i := ends_of_le hend
    exact absurd h (hends.not_spans hi (by decide))
  | cons c rest =>
    refine ⟨c, rest, rfl, ?_⟩
    by_contra hc
    refine h.ne_miss (read_eq_miss hi ?_ rfl)
    rw [hrest]
    simpa [begins, identifier, Shape.identifier, Shape.wordStart, Pattern.nullable] using hc

theorem number_misses (h : Spans text identifier i m) : read text numberLiteral i = .miss := by
  obtain ⟨c, rest, hrest, hc⟩ := name_head hi h
  have hminus : c ≠ '-' := by
    rintro rfl
    exact absurd hc (by decide)
  refine read_eq_miss hi ?_ rfl
  rw [hrest]
  simp [begins, numberLiteral, Shape.number, Shape.digits, Pattern.opt, Pattern.begins,
    not_decimal_of_start hc, hminus]

theorem scalar_name (hname : Spans text identifier i m) (h : Spans text scalar i n) : n = m := by
  have hbody := (spans_congr read_scalar).mp h
  simp only [scalarLiteral, spans_choice_more, spans_choice_one] at hbody
  have hquote : Ends text ['"'] i → False := fun hends => hends.clash hi hname (by decide)
  rcases hbody with hstring | ⟨-, hstring | ⟨-, hnumber | ⟨-, hboolean⟩⟩⟩
  · refine (hquote (hstring.ends _ hi rfl fun c hc => ?_)).elim
    simpa [begins, multilineString, quoted, Parse.Parser.between] using hc
  · refine (hquote (hstring.ends _ hi rfl fun c hc => ?_)).elim
    simpa [begins, stringLiteral, stringSegments, quoted, Parse.Parser.between] using hc
  · exact absurd (read_number.trans (number_misses hi hname)) hnumber.ne_miss
  · have htruth : Spans text identifier i n := by
      simp only [boolean, truth, spans_fmap, spans_choice_more, spans_choice_one] at hboolean
      rcases hboolean with ⟨v, htrue⟩ | ⟨-, v, hfalse⟩
      · exact read_identifier_of_word hi htrue (by decide) (by decide)
      · exact read_identifier_of_word hi hfalse (by decide) (by decide)
    exact htruth.unique hname

/-- A literal that begins like a name ends where the name does, unless it is a prompt. -/
theorem literal_name (hname : Spans text identifier i m) (h : Spans text literal i n) :
    n = m ∨ Spans text prompt i n := by
  have hbody := (spans_congr read_literal).mp h
  simp only [literalBody, spans_choice_more, spans_choice_one] at hbody
  rcases hbody with hprompt | ⟨-, hscalar | ⟨-, hvariable⟩⟩
  · exact .inr hprompt
  · exact .inl (scalar_name hi hname hscalar)
  · exact .inl (Spans.unique (spans_fmap.mp hvariable) hname)

theorem prompt_rest (hprompt : Spans text prompt i n)
    (hrest : Spans text (.choice [scalar, variableName]) i m) : Ends text ['('] m := by
  rcases prompt_cases hi hprompt with hbacktick | hllm
  · exact absurd hrest (hbacktick.not_spans hi (by decide))
  · obtain ⟨_, _, _, _, _, hllm, -⟩ := llm_spans hllm
    obtain ⟨hname, hparen, -⟩ := llm_name hi hllm
    simp only [spans_choice_more, spans_choice_one, variableName,
      spans_fmap] at hrest
    rcases hrest with hscalar | ⟨-, hname'⟩
    · exact scalar_name hi hname hscalar ▸ hparen
    · exact hname.unique hname' ▸ hparen

omit hi in
theorem Ends.spans_eq (h : Ends text heads i) (hi : i ≤ text.length) (hspans : Spans text p i n)
    (hp : still heads p = true) : n = i := by
  rcases h.idle hi hp with hmiss | ⟨v, hok⟩
  · exact absurd hmiss hspans.ne_miss
  · exact hspans.unique ⟨v, hok⟩

/-- Of three quotes a string on one line takes two. -/
theorem string_of_quotes (hstarts : "\"\"\"".toList.isPrefixOf (text.drop i) = true)
    (h : Spans text stringSegments i n) : n = i + 2 ∧ Ends text ['"'] (i + 2) := by
  obtain ⟨tail, htail⟩ := isPrefixOf_iff_prefix.mp hstarts
  have hquote : ∀ k, k < 3 → Ends text ['"'] (i + k) := by
    intro k hk c hc
    rw [← drop_drop, ← htail] at hc
    obtain rfl | rfl | rfl : k = 0 ∨ k = 1 ∨ k = 2 := by omega
    all_goals
      cases hc
      exact mem_cons_self
  simp only [stringSegments, quoted, Parse.Parser.between, spans_keep, spans_skip] at h
  obtain ⟨m, ⟨m', hopen, hsegments⟩, hclose⟩ := h
  obtain ⟨-, rfl⟩ := spans_lit hi hopen
  have hm := hopen.inside hi
  obtain rfl := (hquote 1 (by decide)).spans_eq hm hsegments (by decide)
  obtain ⟨v, hclose⟩ := hclose
  exact ⟨(read_text_ok hm hclose).2, hquote 2 (by decide)⟩

theorem literal_of_string (hquotes : ¬"\"\"\"".toList.isPrefixOf (text.drop i) = true)
    (h : Spans text stringSegments i n) : Ends text ['"'] i ∧ Spans text literal i n := by
  have hends : Ends text ['"'] i := h.ends _ hi rfl fun c hc => by
    simpa [begins, stringSegments, quoted, Parse.Parser.between] using hc
  have hmultiline : read text multilineString i = .miss := by
    have hopen : read text (lit "\"\"\"") i = .miss := (read_text hi _ _).trans (if_neg hquotes)
    simp only [multilineString, quoted, Parse.Parser.between, read_fmap, read_keep, read_skip, hopen]
    rfl
  have hscalar : Spans text scalarLiteral i n :=
    spans_choice_cons.mpr (.inr ⟨hmultiline, spans_choice_cons.mpr (.inl (spans_fmap.mpr h))⟩)
  have hliteral : Spans text literalBody i n := by
    refine spans_choice_cons.mpr (.inr ⟨hends.eq_miss hi (by decide), spans_choice_cons.mpr (.inl ?_)⟩)
    rw [Spans, read_scalar]
    exact hscalar
  refine ⟨hends, ?_⟩
  rw [Spans, read_literal]
  exact hliteral

theorem comma_misses (hspace : Spans text space i m) (hclose : Ends text [')', ']', '\x7d'] m) :
    read text comma i = .miss := by
  obtain ⟨v, hspace'⟩ := hspace
  have hm := (read_bounds hspace' hi).2.1
  have hlit : read text (lit ",") m = .miss := hclose.eq_miss hm (by decide)
  change read text (space *> lit "," <* space) i = _
  rw [read_keep, read_skip, hspace']
  dsimp only [Verdict.bind]
  rw [hlit]

theorem closing_ends (h : Spans text (closing ")") i n) : Ends text [')', ']', '\x7d'] i :=
  h.ends _ hi rfl fun c hc => by
    have hclose : c = ')' := by simpa [begins, closing] using hc
    exact hclose ▸ mem_cons_self

/-- Expressions without braces, brackets and prompts of their own. -/
def simple : Parser Expr :=
  .choice [access, callExpr, literal]

theorem llm_list {p : Parser Expr} {c d e d' e' m : Nat} (hstring : Spans text stringSegments i c)
    (hobject : Spans text (.optional (comma *> object)) c d) (hspace : Spans text space d e)
    (hclose : Spans text (closing ")") e n) (hlist : Spans text (.sepBy p comma) i d')
    (hspace' : Spans text space d' e') (hclose' : Spans text (closing ")") e' m)
    (hp : Ends text ['"'] i → Spans text literal i c → Spans text p i c)
    (hshut : shut ['\x7b'] p = true) : m = n := by
  have hc := hstring.inside hi
  have hfirst : Spans text p i c := by
    have hquotes : ¬"\"\"\"".toList.isPrefixOf (text.drop i) = true := by
      intro hquotes
      obtain ⟨rfl, hquote⟩ := string_of_quotes hi hquotes hstring
      rcases spans_optional.mp hobject with hspans | ⟨-, rfl⟩
      · exact hquote.clash hc hspans (by decide)
      · obtain rfl := hquote.spans_eq hc hspace (by decide)
        exact hquote.clash hc hclose (by decide)
    obtain ⟨hends, hliteral⟩ := literal_of_string hi hquotes hstring
    exact hp hends hliteral
  obtain ⟨c', hfirst', hothers⟩ : ∃ k, Spans text p i k ∧ Spans text (.many (comma *> p)) k d' := by
    rcases spans_sepBy.mp hlist with hlist | ⟨hmiss, -⟩
    · exact hlist
    · exact absurd hmiss hfirst.ne_miss
  obtain rfl := hfirst.unique hfirst'
  -- Nothing else follows, whether there is an object or not.
  have hnone : read text (comma *> p) c = .miss := by
    rw [read_skip, bind_eq_miss]
    rcases spans_optional.mp hobject with hspans | ⟨-, rfl⟩
    · obtain ⟨k, ⟨v, hcomma⟩, hobject⟩ := spans_skip.mp hspans
      have hk := (read_bounds hcomma hc).2.1
      have hbrace : Ends text ['\x7b'] k := by
        rw [Spans, read_object] at hobject
        refine Spans.ends (p := objectBody) _ hobject hk rfl fun c hc => ?_
        simpa [begins, objectBody] using hc
      exact .inr ⟨v, k, hcomma, hbrace.eq_miss hk hshut⟩
    · exact .inl (comma_misses hc hspace (closing_ends (hspace.inside hc) hclose))
  obtain rfl := hothers.many_of_miss hnone
  rcases spans_optional.mp hobject with hspans | ⟨-, rfl⟩
  · obtain ⟨k, hcomma, -⟩ := spans_skip.mp hspans
    have hends := closing_ends (hspace'.inside hc) hclose'
    exact absurd (comma_misses hc hspace' hends) hcomma.ne_miss
  · obtain rfl := hspace.unique hspace'
    exact hclose'.unique hclose

theorem simple_of_string (hends : Ends text ['"'] i) (h : Spans text literal i n) :
    Spans text simple i n := by
  refine spans_choice_cons.mpr (.inr ⟨hends.eq_miss hi (by decide), ?_⟩)
  refine spans_choice_cons.mpr (.inr ⟨hends.eq_miss hi (by decide), ?_⟩)
  exact spans_choice_cons.mpr (.inl h)

omit hi in
theorem argument_of_simple (hprompt : read text prompt i = .miss)
    (h : Spans text simple i n) : Spans text argument i n := by
  rw [Spans, read_argument]
  exact spans_choice_cons.mpr (.inr ⟨hprompt, h⟩)

theorem llm_call {m : Nat} (hprompt : Spans text llmPrompt i n) (hcall : Spans text call i m) :
    m = n := by
  obtain ⟨a, b, c, d, e, hllm, hspace, hstring, hobject, hspace', hclose⟩ := llm_spans hprompt
  obtain ⟨a', b', c', d', e', hname, hopen, hspaceCall, hlist, hspaceCall', hcloseCall⟩ :=
    call_spans hcall
  -- Both have their first argument at the same place.
  obtain ⟨hname', -, rfl⟩ := llm_name hi hllm
  obtain rfl := hname.unique hname'
  obtain ⟨-, rfl⟩ := spans_lit (hname.inside hi) hopen
  obtain rfl := hspace.unique hspaceCall
  have hb := hspace.inside (hllm.inside hi)
  refine llm_list hb hstring hobject hspace' hclose hlist hspaceCall' hcloseCall
    (fun hends hliteral => ?_) (by decide)
  exact argument_of_simple (hends.eq_miss hb (by decide)) (simple_of_string hb hends hliteral)

/-! ### Chains of accesses -/

/-- What stands before the steps of an access chain. -/
def accessBase : Parser Expr :=
  .choice [callExpr, variableName]

omit hi in
theorem many1_spans (h : Spans text (.many1 p) i n) : ∃ m, Spans text p i m := by
  obtain ⟨v, h⟩ := h
  rw [read_many1_eq, read_many] at h
  cases hfirst : read text p i with
  | ok u m => exact ⟨m, u, hfirst⟩
  | miss | dead => cases hfirst ▸ h

theorem access_spans (h : Spans text access i n) :
    ∃ m m', Spans text accessBase i m ∧ Spans text chainStep m m' ∧ m ≤ n := by
  have hbody := (spans_congr read_access).mp h
  simp only [accessBody, spans_ap, spans_fmap] at hbody
  obtain ⟨m, hbase, hsteps⟩ := hbody
  obtain ⟨m', hstep⟩ := many1_spans hsteps
  exact ⟨m, m', hbase, hstep, (hsteps.bounds (hbase.inside hi)).1⟩

omit hi in
theorem base_spans (h : Spans text accessBase i n) :
    Spans text call i n ∨ read text call i = .miss ∧ Spans text identifier i n := by
  simpa [accessBase, callExpr, variableName, read_fmap] using h

theorem chain_ends (h : Spans text chainStep i n) : Ends text ['.', '['] i :=
  h.ends _ hi rfl fun c hc => by
    simpa [begins, chainStep, methodStep, propertyStep, indexStep] using hc

theorem method_rest (hmethod : Spans text methodStep i n)
    (hrest : Spans text (.choice [propertyStep, indexStep]) i m) : Ends text ['('] m := by
  simp only [methodStep, propertyStep, spans_fmap, spans_skip, spans_choice_more,
    spans_choice_one] at hmethod hrest
  obtain ⟨k, hdot, hcall⟩ := hmethod
  rcases hrest with ⟨k', hdot', hname⟩ | ⟨-, hindex⟩
  · obtain rfl := hdot.unique hdot'
    exact call_rest (hdot.inside hi) hcall hname
  · have hends : Ends text ['.'] i := ends_of_starts (spans_lit hi hdot).1
    exact absurd hindex (hends.not_spans hi (by decide))

/-- A call and a literal at the same place end together, or the literal ends before the
parenthesis. -/
theorem call_literal (hcall : Spans text call i n) (hliteral : Spans text literal i m) :
    m = n ∨ Ends text ['('] m := by
  obtain ⟨k, hname, hends⟩ := call_name hi hcall
  rcases literal_name hi hname hliteral with rfl | hprompt
  · exact .inr hends
  · exact .inl (llm_call hi (prompt_name hi hname hprompt).1 hcall).symm

theorem access_rest (haccess : Spans text access i n)
    (hrest : Spans text (.choice [callExpr, literal]) i m) : Ends text ['.', '['] m := by
  obtain ⟨k, k', hbase, hstep, -⟩ := access_spans hi haccess
  have hk := hbase.inside hi
  have hends := chain_ends hk hstep
  simp only [spans_choice_more, spans_choice_one, callExpr, spans_fmap,
    read_fmap, map_eq_miss] at hrest
  rcases base_spans hbase with hcall | ⟨hmiss, hname⟩
  · rcases hrest with hcall' | ⟨hmiss, -⟩
    · exact hcall.unique hcall' ▸ hends
    · exact absurd hmiss hcall.ne_miss
  · rcases hrest with hcall | ⟨-, hliteral⟩
    · exact absurd hmiss hcall.ne_miss
    · rcases literal_name hi hname hliteral with rfl | hprompt
      · exact hends
      · exact ((prompt_name hi hname hprompt).2.clash hk hstep (by decide)).elim

/-- Where a prompt stands, a simple expression is the prompt as a call or goes on with steps. -/
theorem simple_of_prompt (hprompt : Spans text prompt i n) (h : Spans text simple i m) :
    m = n ∨ n ≤ m ∧ ∃ k, Spans text chainStep n k := by
  have hcall : ∀ {k}, Spans text call i k → k = n := by
    intro k hcall
    obtain ⟨_, hname, -⟩ := call_name hi hcall
    exact llm_call hi (prompt_name hi hname hprompt).1 hcall
  simp only [simple, spans_choice_more, spans_choice_one, callExpr,
    spans_fmap, read_fmap, map_eq_miss] at h
  rcases h with haccess | ⟨-, hcall' | ⟨-, hliteral⟩⟩
  · obtain ⟨k, k', hbase, hstep, hle⟩ := access_spans hi haccess
    rcases base_spans hbase with hcall' | ⟨-, hname⟩
    · obtain rfl := hcall hcall'
      exact .inr ⟨hle, k', hstep⟩
    · have hparen := (prompt_name hi hname hprompt).2
      exact (hparen.clash (hname.inside hi) hstep (by decide)).elim
  · exact .inl (hcall hcall')
  · have hbody := (spans_congr read_literal).mp hliteral
    rcases spans_choice_cons.mp hbody with hprompt' | ⟨hmiss, -⟩
    · exact .inl (hprompt'.unique hprompt)
    · exact absurd hmiss hprompt.ne_miss

/-! ### Lists in the same parentheses -/

/-- An argument and a simple expression at the same place end together, or the argument is a prompt
behind which the expression goes on. -/
theorem argument_simple (hargument : Spans text argument i m) (hsimple : Spans text simple i n) :
    m = n ∨ Ends text ['.', '['] m := by
  rw [Spans, read_argument] at hargument
  rcases spans_choice_cons.mp hargument with hprompt | ⟨-, hsimple'⟩
  · rcases simple_of_prompt hi hprompt hsimple with rfl | ⟨-, k, hstep⟩
    · exact .inl rfl
    · exact .inr (chain_ends (hprompt.inside hi) hstep)
  · exact .inl (Spans.unique hsimple' hsimple)

theorem list_not_closed {p : Parser Expr} {k m : Nat} (hends : Ends text ['.', '['] i)
    (hothers : Spans text (.many (comma *> p)) i m) (hspace : Spans text space m k) :
    ¬Spans text (closing ")") k n := by
  intro hclose
  have hnone : read text (comma *> p) i = .miss := by
    rw [read_skip, hends.eq_miss (p := comma) hi (by decide)]
    rfl
  obtain rfl := hothers.many_of_miss hnone
  obtain rfl := hends.spans_eq hi hspace (by decide)
  exact hends.clash hi hclose (by decide)

omit hi

section

variable {m k e m' k' e' : Nat}

theorem others_close_together (hi : i ≤ text.length)
    (hothers : Spans text (.many (comma *> argument)) i m) (hspace : Spans text space m k)
    (hclose : Spans text (closing ")") k e)
    (hothers' : Spans text (.many (comma *> simple)) i m') (hspace' : Spans text space m' k')
    (hclose' : Spans text (closing ")") k' e') : e = e' := by
  induction hleft : text.length - i using Nat.strongRecOn generalizing i with
  | ind left ih =>
    by_cases hcomma : read text comma i = .miss
    · have hnone : ∀ {p : Parser Expr}, read text (comma *> p) i = .miss := by
        intro p
        rw [read_skip, hcomma]
        rfl
      obtain rfl := hothers.many_of_miss hnone
      obtain rfl := hothers'.many_of_miss hnone
      obtain rfl := hspace.unique hspace'
      exact hclose.unique hclose'
    · have hmore : ∀ {p : Parser Expr} {m k e}, harmless (comma *> p) = true →
          Spans text (.many (comma *> p)) i m → Spans text space m k →
          Spans text (closing ")") k e → ∃ j, Spans text (comma *> p) i j := by
        intro p m k e hopen hothers hspace hclose
        refine spans_of_ne_miss hopen fun hnone => hcomma ?_
        obtain rfl := hothers.many_of_miss hnone
        exact comma_misses hi hspace (closing_ends (hspace.inside hi) hclose)
      obtain ⟨j, hstep⟩ := hmore rfl hothers hspace hclose
      obtain ⟨j', hstep'⟩ := hmore rfl hothers' hspace' hclose'
      have hj := hstep.bounds hi
      have hlt := hj.2.2 rfl
      have hlt' := (hstep'.bounds hi).2.2 rfl
      have hothers := (hstep.many_iff (by omega)).mp hothers
      have hothers' := (hstep'.many_iff (by omega)).mp hothers'
      obtain ⟨c, hcomma, hargument⟩ := spans_skip.mp hstep
      obtain ⟨c', hcomma', hsimple⟩ := spans_skip.mp hstep'
      obtain rfl := hcomma.unique hcomma'
      rcases argument_simple (hcomma.inside hi) hargument hsimple with rfl | hends
      · exact ih _ (by omega) hj.2.1 hothers hothers' rfl
      · exact absurd hclose (list_not_closed hj.2.1 hends hothers hspace)

/-- The arguments of a call and a list of simple expressions in the same parentheses end together. -/
theorem lists_close_together (hi : i ≤ text.length) (hlist : Spans text (.sepBy argument comma) i m)
    (hspace : Spans text space m k) (hclose : Spans text (closing ")") k e)
    (hlist' : Spans text (.sepBy simple comma) i m') (hspace' : Spans text space m' k')
    (hclose' : Spans text (closing ")") k' e') : e = e' := by
  have hmisses : read text argument i = .miss → read text simple i = .miss := by
    intro hmiss
    rw [read_argument, argumentBody, read_choice_cons, orElse_eq_miss] at hmiss
    exact hmiss.2
  have hargument : read text simple i = .miss → read text argument i = .miss := by
    intro hmiss
    rw [read_argument, argumentBody, read_choice_cons, orElse_eq_miss]
    refine ⟨?_, hmiss⟩
    simp only [simple, read_choice_cons, orElse_eq_miss, read_literal, literalBody] at hmiss
    exact hmiss.2.2.1.1
  rcases spans_sepBy.mp hlist with ⟨a, hfirst, hothers⟩ | ⟨hmiss, rfl⟩
  · rcases spans_sepBy.mp hlist' with ⟨b, hfirst', hothers'⟩ | ⟨hmiss, -⟩
    · have ha := hfirst.inside hi
      rcases argument_simple hi hfirst hfirst' with rfl | hends
      · exact others_close_together ha hothers hspace hclose hothers' hspace' hclose'
      · exact absurd hclose (list_not_closed ha hends hothers hspace)
    · exact absurd (hargument hmiss) hfirst.ne_miss
  · rcases spans_sepBy.mp hlist' with ⟨b, hfirst', -⟩ | ⟨-, rfl⟩
    · exact absurd (hmisses hmiss) hfirst'.ne_miss
    · obtain rfl := hspace.unique hspace'
      exact hclose.unique hclose'

end

/-! ### Braces and brackets -/

variable (hi : i ≤ text.length)
include hi

theorem brace_of_object (h : read text objectExpr i ≠ .miss) : Ends text ['\x7b'] i := by
  rw [objectExpr, read_fmap, ne_eq, map_eq_miss, read_object] at h
  refine ends_of_ne_miss _ h hi rfl fun c hc => ?_
  simpa [begins, objectBody] using hc

theorem bracket_of_array (h : read text array i ≠ .miss) : Ends text ['['] i := by
  rw [read_array] at h
  refine ends_of_ne_miss _ h hi rfl fun c hc => ?_
  simpa [begins, arrayBody] using hc

/-- Operands and items differ from arguments only in that they may be objects and arrays. -/
theorem read_noun :
    read text (.choice [prompt, access, callExpr, objectExpr, array, literal]) i =
      (read text objectExpr i).orElse ((read text array i).orElse (read text argumentBody i)) := by
  have hmisses {heads : List Char} (hends : Ends text heads i)
      (hshut : shut heads (.choice [prompt, access, callExpr, literal]) = true) :
      read text prompt i = .miss ∧ read text access i = .miss ∧ read text callExpr i = .miss ∧
        read text literal i = .miss := by
    simpa [read_choice_cons, read_choice_nil, orElse_eq_miss] using hends.eq_miss hi hshut
  simp only [read_choice_cons, read_choice_nil, argumentBody]
  by_cases hobject : read text objectExpr i = .miss
  · by_cases harray : read text array i = .miss
    · simp [hobject, harray]
    · simp [hmisses (bracket_of_array hi harray) (by decide), hobject]
  · have hends := brace_of_object hi hobject
    have harray : read text array i = .miss := hends.eq_miss hi (by decide)
    simp [hmisses hends (by decide), harray]

/-! ### Blanks and free space -/

/-- Blanks and line ends. -/
def isFree (c : Char) : Bool :=
  " \t\r\n".toList.contains c

theorem gap_spans (hrest : text.drop i = c :: rest) (hc : isFree c = true) :
    Spans text (.token gap name) i (i + (1 + (rest.takeWhile isFree).length)) := by
  have hplus : (Pattern.plus (Shape.among " \t\r\n")).match? (c :: rest) =
      some (1 + (rest.takeWhile isFree).length) := match?_one_star hc isFree rest
  have hmatch : gap.match? (c :: rest) = some (1 + (rest.takeWhile isFree).length) := by
    change (Pattern.alt (.plus (Shape.among " \t\r\n")) _).match? (c :: rest) = _
    rw [Pattern.match?, hplus]
  have hread := read_token hi gap name
  rw [hrest, hmatch] at hread
  exact ⟨_, hread⟩

theorem space_spans : Spans text space i n ↔ Spans text (.many (.token gap "whitespace")) i n := by
  rw [← spans_fmap (f := joined), Spans, Spans]
  exact iff_of_eq (congrArg (fun v => ∃ u, v = Verdict.ok u n) (read_token_star hi))

omit hi in
theorem drop_succ (hrest : text.drop i = c :: rest) :
    i + 1 ≤ text.length ∧ text.drop (i + 1) = rest := by
  have hlength := congrArg List.length hrest
  rw [length_drop, length_cons] at hlength
  refine ⟨by omega, ?_⟩
  rw [← drop_drop, hrest]
  rfl

theorem space_step (hrest : text.drop i = c :: rest) (hc : isFree c = true)
    (h : Spans text space i n) : Spans text space (i + 1) n := by
  obtain ⟨hi', hrest'⟩ := drop_succ hrest
  have hmany := ((gap_spans hi hrest hc).many_iff (by omega)).mp ((space_spans hi).mp h)
  rw [space_spans hi']
  cases rest with
  | nil => exact hmany
  | cons d rest =>
    by_cases hd : isFree d = true
    · refine ((gap_spans hi' hrest' hd).many_iff (by omega)).mpr ?_
      rw [takeWhile_cons_of_pos hd, length_cons] at hmany
      rw [show i + 1 + (1 + (rest.takeWhile isFree).length) =
        i + (1 + ((rest.takeWhile isFree).length + 1)) by omega]
      exact hmany
    · rw [takeWhile_cons_of_neg hd] at hmany
      exact hmany

omit hi in
theorem star_spans (accepts : Char → Bool) (name : String) (hi : i ≤ text.length) :
    Spans text (.token (.star (.one accepts)) name) i
      (i + ((text.drop i).takeWhile accepts).length) := by
  have hread := read_token hi (.star (.one accepts)) name
  rw [match?_star_one] at hread
  exact ⟨_, hread⟩

theorem ws_spans :
    Spans text ws i (i + ((text.drop i).takeWhile fun c => " \t".toList.contains c).length) :=
  star_spans _ _ hi

theorem ws_of_ws1 (h : Spans text ws1 i n) : Spans text ws i n := by
  obtain ⟨v, h⟩ := h
  have hws := ws_spans hi
  rw [ws1, read_token hi] at h
  cases hrest : text.drop i with
  | nil =>
    rw [hrest] at h
    cases h
  | cons c rest =>
    rw [hrest] at h hws
    by_cases hc : " \t".toList.contains c = true
    · have hmatch : (Pattern.plus (Shape.among " \t")).match? (c :: rest) = some (1 +
          (rest.takeWhile fun c => " \t".toList.contains c).length) := match?_one_star hc _ rest
      rw [hmatch] at h
      cases h
      rw [takeWhile_cons_of_pos hc, length_cons, Nat.add_comm _ 1] at hws
      exact hws
    · have hmatch : (Pattern.plus (Shape.among " \t")).match? (c :: rest) = none := by
        change Option.bind (if " \t".toList.contains c then some 1 else none) _ = none
        rw [if_neg hc]
        rfl
      rw [hmatch] at h
      cases h

theorem blank_spans : Spans text blank i (i + ((text.drop i).takeWhile isFree).length) := by
  have hread := read_token hi (.star (Shape.among " \t\r\n")) "whitespace"
  rw [Shape.among, match?_star_one] at hread
  exact ⟨_, hread⟩

omit hi in
theorem isFree_of_blank (hc : " \t".toList.contains c = true) : isFree c = true := by
  simp only [isFree, contains_iff_mem] at hc ⊢
  exact mem_append_left ['\r', '\n'] hc

omit hi in
theorem space_after (hf : ∀ c, f c = true → isFree c = true) (hi : i ≤ text.length)
    (hspace : Spans text space i k) :
    Spans text space (i + ((text.drop i).takeWhile f).length) k := by
  induction hrest : text.drop i generalizing i with
  | nil => exact hspace
  | cons c rest ih =>
    obtain ⟨hi', hrest'⟩ := drop_succ hrest
    by_cases hc : f c = true
    · have hlast := ih hi' (space_step hi hrest (hf c hc) hspace) hrest'
      rw [takeWhile_cons_of_pos hc, length_cons]
      rw [show i + ((rest.takeWhile f).length + 1) = i + 1 + (rest.takeWhile f).length by omega]
      exact hlast
    · rw [takeWhile_cons_of_neg hc]
      exact hspace

theorem space_after_ws (hws : Spans text ws i m) (hspace : Spans text space i k) :
    Spans text space m k := by
  obtain rfl := hws.unique (ws_spans hi)
  exact space_after (fun _ => isFree_of_blank) hi hspace

theorem space_after_blank (hblank : Spans text blank i m) (hspace : Spans text space i k) :
    Spans text space m k := by
  obtain rfl := hblank.unique (blank_spans hi)
  exact space_after (fun _ => id) hi hspace

theorem not_free_of_blank (hblank : Spans text blank i m) (hc : (text.drop m).head? = some c) :
    isFree c = false := by
  obtain rfl := hblank.unique (blank_spans hi)
  have happend := takeWhile_append_dropWhile (p := isFree) (l := text.drop i)
  have hdrop : text.drop (i + ((text.drop i).takeWhile isFree).length) =
      (text.drop i).dropWhile isFree := by
    rw [← drop_drop]
    nth_rewrite 2 [← happend]
    exact drop_left
  have hhead := List.head?_dropWhile_not isFree (text.drop i)
  rw [← hdrop, hc] at hhead
  exact hhead

/-! ### Binary operations -/

/-- The parser of a list of operators. -/
def operators (ops : List BinaryOp) : Parser BinaryOp :=
  .choice (ops.map fun op => (fun _ => op) <$> lit op.toText)

theorem operators_spans (h : Spans text (operators ops) i n) :
    ∃ op : BinaryOp,
      op.toText.toList.isPrefixOf (text.drop i) = true ∧ n = i + op.toText.toList.length := by
  induction ops with
  | nil => exact absurd h spans_choice_nil
  | cons op ops ih =>
    rcases spans_choice_cons.mp h with hop | ⟨-, hother⟩
    · exact ⟨op, spans_lit hi (spans_fmap.mp hop)⟩
    · exact ih hother

theorem operator_spans (h : Spans text operator i n) : ∃ op : BinaryOp,
    op.toText.toList.isPrefixOf (text.drop i) = true ∧ n = i + op.toText.toList.length := by
  obtain ⟨v, h⟩ := h
  rw [operator, read_label] at h
  exact operators_spans hi ⟨v, h⟩

theorem no_comment_at_operator (hoperator : Spans text operator i m) (hws : Spans text ws m k)
    (hoperand : Spans text operand k n) (hc : c ∈ ['/', '*']) :
    ¬['/', c].isPrefixOf (text.drop i) = true := by
  have hm := hoperator.inside hi
  intro hstarts
  obtain ⟨tail, htail⟩ := isPrefixOf_iff_prefix.mp hstarts
  obtain ⟨op, hop, hend⟩ := operator_spans hi hoperator
  have hmark : m = i + 1 := by
    rw [← htail] at hop
    simp only [mem_cons, not_mem_nil, or_false] at hc
    rcases hc with rfl | rfl <;> cases op <;> first | exact hend | cases hop
  -- A second slash or a star is neither a blank nor the beginning of an operand.
  have hends : Ends text ['/', '*'] m := by
    intro d hd
    rw [hmark, ← drop_drop, ← htail] at hd
    cases hd
    exact hc
  obtain rfl := hends.spans_eq hm hws (by decide)
  exact hends.clash hm hoperand (by decide)

theorem gap_misses_at_operator (hoperator : Spans text operator i m) (hws : Spans text ws m k)
    (hoperand : Spans text operand k n) : read text (.token gap name) i = .miss := by
  have hcomment : ∀ c, c ∈ ['/', '*'] → ¬['/', c].isPrefixOf (text.drop i) = true :=
    fun c => no_comment_at_operator hi hoperator hws hoperand
  have hblank : read text (.token (.plus (Shape.among " \t\r\n")) name) i = .miss := by
    by_contra hne
    refine (ends_of_ne_miss [' ', '\t', '\r', '\n'] hne hi rfl fun c hc => ?_).clash hi hoperator
      (by decide)
    simpa [begins, Shape.among] using hc
  have hline : read text (.token Shape.lineComment name) i = .miss := by
    by_contra hne
    obtain ⟨_, v, hread⟩ := spans_of_ne_miss rfl hne
    exact hcomment '/' (by decide) (prefix_of_token hi hread)
  have hblock : read text (.token Shape.blockComment name) i = .miss := by
    by_contra hne
    obtain ⟨_, v, hread⟩ := spans_of_ne_miss rfl hne
    exact hcomment '*' (by decide) (prefix_of_token hi hread)
  have halt : read text (.token gap name) i = _ := read_token_alt hi
  have halt' : read text (.token (Shape.lineComment <|> Shape.blockComment) name) i = _ :=
    read_token_alt hi
  rw [halt, read_alt, hblank, halt', read_alt, hline, hblock]
  rfl

/-- Behind blanks an operator follows, and an operand up to the second place. -/
def Operates (text : List Char) (m n : Nat) : Prop :=
  ∃ k k₁ k₂, Spans text ws m k ∧ Spans text operator k k₁ ∧ Spans text ws k₁ k₂ ∧
    Spans text operand k₂ n

theorem binary_argument (hbinary : Spans text binary i n) (hargument : Spans text argumentBody i m) :
    Operates text m n := by
  have hbody := (spans_congr read_binary).mp hbinary
  simp only [binaryBody, spans_ap, spans_keep, spans_fmap] at hbody
  obtain ⟨k₂, ⟨k₁, ⟨k, ⟨m', hoperand, hws⟩, hoperator⟩, hws'⟩, hoperand'⟩ := hbody
  suffices hend : m' = m from ⟨k, k₁, k₂, hend ▸ hws, hoperator, hws', hoperand'⟩
  have hobject : read text objectExpr i = .miss := by
    by_contra hne
    exact (brace_of_object hi hne).clash hi hargument (by decide)
  have harray : read text array i = .miss := by
    by_contra hne
    exact (bracket_of_array hi hne).clash hi hargument (by decide)
  rw [Spans, read_operand] at hoperand
  have hnoun := read_noun hi
  rw [hobject, harray, miss_orElse, miss_orElse] at hnoun
  obtain ⟨v, hoperand⟩ := hoperand
  exact Spans.unique ⟨v, hnoun.symm.trans hoperand⟩ hargument

theorem binary_simple (hbinary : Spans text binary i n) (hsimple : Spans text simple i m) :
    Operates text m n := by
  by_cases hmiss : read text prompt i = .miss
  · exact binary_argument hi hbinary (spans_choice_cons.mpr (.inr ⟨hmiss, hsimple⟩))
  · obtain ⟨p, hprompt⟩ := spans_of_ne_miss rfl hmiss
    have hargument : Spans text argumentBody i p := spans_choice_cons.mpr (.inl hprompt)
    obtain ⟨k, k₁, k₂, hws, hoperator, hrest⟩ := binary_argument hi hbinary hargument
    rcases simple_of_prompt hi hprompt hsimple with rfl | ⟨-, k', hstep⟩
    · exact ⟨k, k₁, k₂, hws, hoperator, hrest⟩
    · have hp := hprompt.inside hi
      have hends := chain_ends hp hstep
      obtain rfl := hends.spans_eq hp hws (by decide)
      exact (hends.clash hp hoperator (by decide)).elim

theorem space_before_operator (hws : Spans text ws i k) (hoperator : Spans text operator k k₁)
    (hws' : Spans text ws k₁ k₂) (hoperand : Spans text operand k₂ n)
    (hspace : Spans text space i m) : m = k := by
  have hk := hws.inside hi
  have hstays : Spans text space k k := by
    rw [space_spans hk]
    exact ⟨[], by rw [read_many, gap_misses_at_operator hk hoperator hws' hoperand]⟩
  exact (space_after_ws hi hws hspace).unique hstays

end AgentLang.Grammar
