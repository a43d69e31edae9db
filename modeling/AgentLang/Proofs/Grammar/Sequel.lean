import AgentLang.Proofs.Grammar.Overlap

/-!
# What follows a name

A statement that begins with a name is told from others by what stands behind the name. Where a
block begins, no other statement can stand and end.
-/

namespace AgentLang.Grammar

open Verdict
open Parse (Pattern Engine)
open Parse.Parser (lit word)

variable {α : Type} {text : List Char} {i k m n : Nat}

/-! ### Words -/

theorem word_unique (hi : i ≤ text.length) (h : Spans text (.keyword (c :: rest) name) i n)
    (h' : Spans text (.keyword (d :: others) name') i m) (hc : c.isAlpha = true)
    (hd : d.isAlpha = true) (hrest : rest.all Engine.isWordChar = true)
    (hothers : others.all Engine.isWordChar = true) : c :: rest = d :: others := by
  obtain ⟨v, h⟩ := h
  obtain ⟨v', h'⟩ := h'
  have hname : Spans text identifier i n := read_identifier_of_word hi h hc hrest
  have hname' : Spans text identifier i m := read_identifier_of_word hi h' hd hothers
  have hend := hname.unique hname'
  rw [read_keyword hi] at h h'
  split at h
  next hword =>
    split at h'
    next hword' =>
      cases h
      cases h'
      exact eq_of_starts hword.1 hword'.1 (by omega)
    next => cases h'
  next => cases h

/-! ### Ends of statements -/

theorem spans_lookahead : Spans text (.lookahead p) i n ↔ (∃ m, Spans text p i m) ∧ n = i := by
  simp only [Spans, read_lookahead, bind_eq_ok, Verdict.ok.injEq]
  constructor
  · rintro ⟨v, u, m, h, rfl, rfl⟩
    exact ⟨⟨m, u, h⟩, rfl⟩
  · rintro ⟨⟨m, u, h⟩, rfl⟩
    exact ⟨u, u, m, h, rfl, rfl⟩

variable (hi : i ≤ text.length)
include hi

theorem spans_token_seq :
    Spans text (.token (first ++ second) name) i n ↔
      ∃ m, Spans text (.token first name) i m ∧ Spans text (.token second name) m n := by
  have hseq : read text (.token (first ++ second) name) i = _ := read_token_seq hi
  rw [Spans, hseq]
  exact spans_ap.trans (exists_congr fun m => and_congr_left fun _ => spans_fmap)

theorem spans_token_name (h : Spans text (.token shape name) i n) :
    Spans text (.token shape name') i n := by
  obtain ⟨v, h⟩ := h
  exact ⟨v, (read_token hi _ _).trans ((read_token hi _ _).symm.trans h)⟩

theorem spans_token_lit {literal : String} (h : Spans text (.token (.lit literal) name) i n) :
    Spans text (lit literal) i n := by
  obtain ⟨v, h⟩ := h
  have hread := (read_token_exactly hi).symm.trans h
  exact ⟨v, (read_text hi _ _).trans ((read_text hi _ _).symm.trans hread)⟩

theorem spans_token_opt (h : Spans text (.token shape.opt name) i n) :
    Spans text (.token shape name) i n ∨ n = i := by
  obtain ⟨v, h⟩ := h
  have halt : read text (.alt (.token shape name) (.token (.exactly []) name)) i = .ok v n :=
    (read_token_alt hi).symm.trans h
  rw [read_alt] at halt
  rcases orElse_eq_ok.mp halt with hsome | ⟨-, hnone⟩
  · exact .inl ⟨v, hsome⟩
  · rw [read_token_exactly hi, read_text hi] at hnone
    cases hnone
    exact .inr rfl

/-- The first characters of what ends a statement, behind its blanks. -/
def endings : List Char := [';', '\n', '\r', '\x7d', '/']

/-- One or more semicolons, with blanks around them. -/
def semicolons : Parser String :=
  .token (.star (Shape.among " \t") ++ .lit ";" ++ .star (Shape.among " \t;")) "';'"

/-- What may follow a statement without semicolons. -/
def stop : Parser (Option String) :=
  .choice [
    some <$> Parse.Parser.token Shape.lineEnd "newline",
    some <$> Parse.Parser.lit "\x7d",
    some <$> Parse.Parser.lit "//",
    some <$> Parse.Parser.lit "/*",
    (fun _ => none) <$> Parse.Parser.eof]

theorem stop_ends (h : Spans text stop i n) : Ends text ['\n', '\r', '\x7d', '/'] i := by
  simp only [stop, spans_choice_more, spans_choice_one, spans_fmap] at h
  rcases h with hline | ⟨-, hbrace | ⟨-, hcomment | ⟨-, hcomment | ⟨-, v, heof⟩⟩⟩⟩
  · refine (hline.ends ['\r', '\n'] hi rfl fun c hc => ?_).mono (by decide)
    simpa [begins, Shape.lineEnd] using hc
  · exact (ends_of_starts (spans_lit hi hbrace).1).mono (by decide)
  · exact (ends_of_starts (spans_lit hi hcomment).1).mono (by decide)
  · exact (ends_of_starts (spans_lit hi hcomment).1).mono (by decide)
  · rw [read_eof] at heof
    split at heof
    next hend => exact ends_of_le hend
    next => cases heof

omit hi in
theorem statementEnd_cases (h : Spans text statementEnd i n) : Spans text semicolons i n ∨
    read text semicolons i = .miss ∧ Spans text ws i n ∧ ∃ m, Spans text stop n m := by
  rcases spans_choice_cons.mp h with hsemicolons | ⟨hmiss, hfollows⟩
  · exact .inl (spans_fmap.mp hsemicolons)
  · rw [read_fmap, map_eq_miss] at hmiss
    rcases spans_choice_cons.mp hfollows with hfollows | ⟨-, hnil⟩
    · obtain ⟨k, hws, hstop⟩ := spans_ap.mp hfollows
      obtain ⟨hstop, rfl⟩ := spans_lookahead.mp hstop
      exact .inr ⟨hmiss, spans_fmap.mp hws, hstop⟩
    · exact absurd hnil spans_choice_nil

omit hi in
theorem statementEnd_of_stop (hmiss : read text semicolons i = .miss) (hws : Spans text ws i n)
    (hstop : Spans text stop n m) : Spans text statementEnd i n := by
  refine spans_choice_cons.mpr (.inr ⟨?_, spans_choice_cons.mpr (.inl (spans_ap.mpr
    ⟨n, spans_fmap.mpr hws, spans_lookahead.mpr ⟨⟨m, hstop⟩, rfl⟩⟩))⟩)
  rw [read_fmap, map_eq_miss]
  exact hmiss

theorem semicolons_ends (hws : Spans text ws i k) (h : Spans text semicolons i n) :
    Ends text [';'] k := by
  obtain ⟨_, hsemicolon, -⟩ := (spans_token_seq hi).mp h
  obtain ⟨k', hblanks, hsemicolon⟩ := (spans_token_seq hi).mp hsemicolon
  obtain rfl := hws.unique (spans_token_name hi hblanks)
  have hk := hws.inside hi
  exact ends_of_starts (spans_lit hk (spans_token_lit hk hsemicolon)).1

theorem statementEnd_ends (hws : Spans text ws i k) (h : Spans text statementEnd i n) :
    Ends text endings k := by
  rcases statementEnd_cases h with hsemicolons | ⟨-, hws', m, hstop⟩
  · exact (semicolons_ends hi hws hsemicolons).mono (by decide)
  · obtain rfl := hws.unique hws'
    exact (stop_ends (hws.inside hi) hstop).mono (by decide)

/-! ### Expressions that begin with a name -/

/-- How a statement goes on behind a name or a call, and behind blanks. -/
def sequels : List Char := ['.', '[', ':', '=', '!', '+', '-', '*', '/', '<', '>'] ++ endings

theorem operator_ends (h : Spans text operator i n) : Ends text sequels i := by
  obtain ⟨op, hstarts, -⟩ := operator_spans hi h
  cases op <;> exact (ends_of_starts hstarts).mono (by decide)

theorem noun_of_name (hname : Spans text identifier i m) (hprompt : read text prompt i = .miss)
    (h : Spans text access i n ∨ Spans text call i n ∨ Spans text literal i n) :
    ∃ b, (b = m ∨ Spans text call i b) ∧ (n = b ∨ ∃ k, Spans text chainStep b k) := by
  rcases h with haccess | hcall | hliteral
  · obtain ⟨b, k, hbase, hstep, -⟩ := access_spans hi haccess
    rcases base_spans hbase with hcall | ⟨-, hname'⟩
    · exact ⟨b, .inr hcall, .inr ⟨k, hstep⟩⟩
    · exact ⟨b, .inl (hname'.unique hname), .inr ⟨k, hstep⟩⟩
  · exact ⟨n, .inr hcall, .inl rfl⟩
  · rcases literal_name hi hname hliteral with rfl | hspans
    · exact ⟨n, .inl rfl, .inl rfl⟩
    · exact absurd hprompt hspans.ne_miss

theorem brackets_miss (hname : Spans text identifier i m) :
    read text array i = .miss ∧ read text objectExpr i = .miss := by
  constructor
  · by_contra hne
    rw [read_array] at hne
    refine (ends_of_ne_miss ['['] hne hi rfl fun c hc => ?_).clash hi hname (by decide)
    simpa [begins, arrayBody] using hc
  · by_contra hne
    rw [objectExpr, read_fmap, map_eq_miss, read_object] at hne
    refine (ends_of_ne_miss ['\x7b'] hne hi rfl fun c hc => ?_).clash hi hname (by decide)
    simpa [begins, objectBody] using hc

/-- An expression goes on at the place, as an access chain or as an operation. -/
def GoesOn (text : List Char) (k : Nat) : Prop :=
  Ends text ['.', '['] k ∨ ∃ n, Spans text operator k n

omit hi in
theorem GoesOn.ends (h : GoesOn text k) (hk : k ≤ text.length) : Ends text sequels k := by
  rcases h with hstep | ⟨n, hoperator⟩
  · exact hstep.mono (by decide)
  · exact operator_ends hk hoperator

/-- An expression that begins with a name ends behind it or behind a call, or it goes on. -/
theorem value_cases (hname : Spans text identifier i m) (hprompt : read text prompt i = .miss)
    (h : Spans text value i e) :
    (e = m ∨ Spans text call i e) ∨
      ∃ b k, (b = m ∨ Spans text call i b) ∧ Spans text ws b k ∧ k ≤ text.length ∧
        GoesOn text k := by
  obtain ⟨harray, hobject⟩ := brackets_miss hi hname
  have hbound : ∀ b, (b = m ∨ Spans text call i b) → b ≤ text.length := by
    rintro b (rfl | hcall)
    · exact (hname.inside hi)
    · exact (hcall.inside hi)
  -- A step of an access chain follows without blanks.
  have hchain : ∀ b k, (b = m ∨ Spans text call i b) → Spans text chainStep b k →
      ∃ b k, (b = m ∨ Spans text call i b) ∧ Spans text ws b k ∧ k ≤ text.length ∧
        GoesOn text k := by
    intro b k hb hstep
    have hends := chain_ends (hbound b hb) hstep
    have hws := ws_spans (hbound b hb)
    rw [hends.spans_eq (hbound b hb) hws (by decide)] at hws
    exact ⟨b, b, hb, hws, hbound b hb, .inl hends⟩
  have hnone : ∀ {α : Type} {p : Parser α} {j}, read text p i = .miss → ¬Spans text p i j :=
    fun hmiss hspans => hspans.ne_miss hmiss
  have hbody := (spans_congr read_value).mp h
  simp only [valueBody, spans_choice_more, spans_choice_one, hnone hprompt,
    hnone harray, hnone hobject, false_or, callExpr, spans_fmap] at hbody
  rcases hbody with hbinary | ⟨-, -, hrest⟩
  · have hbody := (spans_congr read_binary).mp hbinary
    simp only [binaryBody, spans_ap, spans_keep, spans_fmap] at hbody
    obtain ⟨_, ⟨_, ⟨k, ⟨m', ⟨v, hoperand⟩, hws⟩, hoperator⟩, -⟩, -⟩ := hbody
    rw [read_operand, operandBody, read_noun hi, hobject, harray, miss_orElse, miss_orElse] at hoperand
    have hargument : Spans text argumentBody i m' := ⟨v, hoperand⟩
    simp only [argumentBody, spans_choice_more, spans_choice_one,
      hnone hprompt, false_or, callExpr, spans_fmap] at hargument
    obtain ⟨b, hb, rfl | ⟨k', hstep⟩⟩ := noun_of_name hi hname hprompt
      (hargument.2.imp id fun h => h.2.imp id And.right)
    · exact .inr ⟨m', k, hb, hws, (hws.inside (hbound m' hb)), .inr ⟨_, hoperator⟩⟩
    · exact .inr (hchain b k' hb hstep)
  · obtain ⟨b, hb, rfl | ⟨k, hstep⟩⟩ := noun_of_name hi hname hprompt
      (hrest.imp id fun h => h.2.imp id fun h => h.2.2.2)
    · exact .inl hb
    · exact .inr (hchain b k hb hstep)

/-- How an expression that is a statement goes on behind its name or its call. -/
theorem value_sequel (hname : Spans text identifier i m) (hprompt : read text prompt i = .miss)
    (h : Spans text value i e) (hend : Spans text statementEnd e n) :
    ∃ b k, (b = m ∨ Spans text call i b) ∧ Spans text ws b k ∧ Ends text sequels k := by
  rcases value_cases hi hname hprompt h with he | ⟨b, k, hb, hws, hk, hgoes⟩
  · have hle := h.inside hi
    have hws := ws_spans hle
    exact ⟨e, _, he, hws, (statementEnd_ends hle hws hend).mono (by decide)⟩
  · exact ⟨b, k, hb, hws, hgoes.ends hk⟩

omit hi in
theorem value_of_name (h : Spans text identifier i m) : read text value i ≠ .miss := by
  intro hmiss
  rw [read_value, valueBody] at hmiss
  simp only [read_choice_cons, read_choice_nil, orElse_eq_miss, and_true, read_literal, literalBody,
    variableName, read_fmap, map_eq_miss] at hmiss
  exact h.ne_miss hmiss.2.2.2.2.2.2.2.2

/-! ### Other statements that begin with a name -/

theorem typeHint_sequel (hname : Spans text identifier i m) (hws : Spans text ws m k)
    (h : Spans text typeHint i n) : Ends text sequels k := by
  have hk := hws.inside (hname.inside hi)
  simp only [typeHint, spans_ap, spans_keep, spans_fmap] at h
  obtain ⟨_, ⟨_, ⟨k', ⟨m', hname', hws'⟩, hcolons⟩, -⟩, -⟩ := h
  obtain rfl := hname.unique hname'
  obtain rfl := hws.unique hws'
  exact (ends_of_starts (spans_lit hk hcolons).1).mono (by decide)

theorem assignment_sequel (hname : Spans text identifier i m) (hws : Spans text ws m k)
    (h : Spans text assignment i n) : Ends text sequels k := by
  have hk := hws.inside (hname.inside hi)
  simp only [assignment, hint, spans_ap, spans_keep, spans_fmap, spans_optional, spans_skip] at h
  obtain ⟨_, ⟨_, ⟨_, ⟨k', ⟨_, ⟨m', hname', hhint⟩, hws'⟩, hequals⟩, -⟩, -⟩, -⟩ := h
  obtain rfl := hname.unique hname'
  rcases hhint with ⟨_, ⟨_, ⟨k₁, hws₁, hcolon⟩, -⟩, -⟩ | ⟨-, rfl⟩
  · obtain rfl := hws.unique hws₁
    exact (ends_of_starts (spans_lit hk hcolon).1).mono (by decide)
  · obtain rfl := hws.unique hws'
    exact (ends_of_starts (spans_lit hk hequals).1).mono (by decide)

/-! ### Blocks -/

def threadWord : Parser ThreadKind :=
  .choice [
    (fun _ => .fresh) <$> word "thread",
    (fun _ => .child) <$> word "subthread",
    (fun _ => .branch) <$> word "parallel"]

def timeWord : Parser Bool :=
  .choice [(fun _ => true) <$> word "printTime", (fun _ => false) <$> word "time"]

omit hi in
theorem threadWord_cases (h : Spans text threadWord i n) :
    Spans text (word "thread") i n ∨ Spans text (word "subthread") i n ∨
      Spans text (word "parallel") i n := by
  simp only [threadWord, spans_choice_more, spans_choice_one, spans_fmap] at h
  exact h.imp id fun h => h.2.imp id And.right

omit hi in
theorem timeWord_cases (h : Spans text timeWord i n) :
    Spans text (word "printTime") i n ∨ Spans text (word "time") i n := by
  simp only [timeWord, spans_choice_more, spans_choice_one, spans_fmap] at h
  exact h.imp id And.right

theorem threadWord_name (h : Spans text threadWord i n) : Spans text identifier i n := by
  rcases threadWord_cases h with ⟨v, h⟩ | ⟨v, h⟩ | ⟨v, h⟩ <;>
    exact read_identifier_of_word hi h (by decide) (by decide)

theorem timeWord_name (h : Spans text timeWord i n) : Spans text identifier i n := by
  rcases timeWord_cases h with ⟨v, h⟩ | ⟨v, h⟩ <;>
    exact read_identifier_of_word hi h (by decide) (by decide)

theorem thread_not_time (h : Spans text threadWord i n) : ¬Spans text timeWord i m := by
  intro h'
  rcases threadWord_cases h with h | h | h <;> rcases timeWord_cases h' with h' | h' <;>
    exact absurd (word_unique hi h h' (by decide) (by decide) (by decide) (by decide)) (by decide)

/-! ### Conditions and arguments -/

omit hi in
theorem parenthesized_spans (h : Spans text parenthesized i n) : ∃ m m₁ m₂ m₃,
    Spans text (lit "(") i m ∧ Spans text space m m₁ ∧ Spans text condition m₁ m₂ ∧
      Spans text space m₂ m₃ ∧ Spans text (closing ")") m₃ n := by
  simp only [parenthesized, spans_keep, spans_skip] at h
  obtain ⟨m₃, ⟨m₂, ⟨m₁, ⟨m, hopen, hspace⟩, hcondition⟩, hspace'⟩, hclose⟩ := h
  exact ⟨m, m₁, m₂, m₃, hopen, hspace, hcondition, hspace', hclose⟩

theorem binary_not_closed (hbinary : Spans text binary i n)
    (hlist : Spans text (.sepBy argument comma) i m) (hspace : Spans text space m k) :
    ¬Spans text (closing ")") k e := by
  intro hclose
  rcases spans_sepBy.mp hlist with ⟨a, hargument, hothers⟩ | ⟨hmiss, rfl⟩
  · have ha := hargument.inside hi
    rw [Spans, read_argument] at hargument
    obtain ⟨k₀, k₁, k₂, hws, hoperator, hws', hoperand⟩ := binary_argument hi hbinary hargument
    have hk₀ := hws.inside ha
    -- Neither a comma nor a closing mark stands where the operator does.
    have hcomma : read text (comma *> argument) a = .miss := by
      by_contra hne
      obtain ⟨_, hspans⟩ := spans_of_ne_miss rfl hne
      simp only [comma, symbol, spans_skip, spans_keep] at hspans
      obtain ⟨_, ⟨_, ⟨k', hspace', hcomma⟩, -⟩, -⟩ := hspans
      obtain rfl := space_before_operator ha hws hoperator hws' hoperand hspace'
      have hends : Ends text [','] k' := ends_of_starts (spans_lit hk₀ hcomma).1
      exact hends.clash hk₀ hoperator (by decide)
    obtain rfl := hothers.many_of_miss hcomma
    obtain rfl := space_before_operator ha hws hoperator hws' hoperand hspace
    exact (closing_ends hk₀ hclose).clash hk₀ hoperator (by decide)
  · -- The first operand is no argument, so it is an object or an array.
    have hbody := (spans_congr read_binary).mp hbinary
    simp only [binaryBody, spans_ap, spans_keep, spans_fmap] at hbody
    obtain ⟨_, ⟨_, ⟨_, ⟨_, ⟨v, hoperand⟩, -⟩, -⟩, -⟩, -⟩ := hbody
    rw [read_argument] at hmiss
    rw [read_operand, operandBody, read_noun hi, hmiss, orElse_miss, objectExpr, read_fmap] at hoperand
    have hends : Ends text ['\x7b', '['] m := by
      rcases orElse_eq_ok.mp hoperand with hobject | ⟨-, harray⟩
      · obtain ⟨v, hobject, -⟩ := map_eq_ok.mp hobject
        rw [read_object] at hobject
        refine (ends_of_read ['\x7b'] hobject hi rfl fun c hc => ?_).mono (by simp)
        simpa [begins, objectBody] using hc
      · rw [read_array] at harray
        refine (ends_of_read ['['] harray hi rfl fun c hc => ?_).mono (by simp)
        simpa [begins, arrayBody] using hc
    obtain rfl := hends.spans_eq hi hspace (by decide)
    exact hends.clash hi hclose (by decide)

theorem call_parenthesized (hname : Spans text identifier i m) (hcall : Spans text call i n)
    (hcondition : Spans text parenthesized m e) : n = e := by
  obtain ⟨a, b, c, d, f, hname', hopen, hspace, hlist, hspace', hclose⟩ := call_spans hcall
  obtain rfl := hname.unique hname'
  obtain ⟨b', c', d', f', hopen', hspace₁, hcondition, hspace₂, hclose'⟩ :=
    parenthesized_spans hcondition
  obtain rfl := hopen.unique hopen'
  obtain rfl := hspace.unique hspace₁
  have hb := hopen.inside (hname.inside hi)
  have hc := hspace.inside hb
  rw [Spans, read_condition] at hcondition
  rcases spans_choice_cons.mp hcondition with hbinary | ⟨-, hsimple⟩
  · exact absurd hclose (binary_not_closed hc hbinary hlist hspace')
  · have hsimple : Spans text simple c d' := hsimple
    have hd' := hsimple.inside hc
    obtain ⟨a', ⟨v, hargument⟩, hothers⟩ : ∃ a', Spans text argument c a' ∧
        Spans text (.many (comma *> argument)) a' d := by
      rcases spans_sepBy.mp hlist with hlist | ⟨hmiss, -⟩
      · exact hlist
      · rw [read_argument, argumentBody, read_choice_cons, orElse_eq_miss] at hmiss
        exact absurd hmiss.2 hsimple.ne_miss
    rw [read_argument] at hargument
    -- The only argument ends where the condition does.
    have hsame : a' = d' := by
      rcases spans_choice_cons.mp ⟨v, hargument⟩ with hprompt | ⟨-, hsimple'⟩
      · have ha' := hprompt.inside hc
        rcases simple_of_prompt hc hprompt hsimple with rfl | ⟨-, _, hstep⟩
        · rfl
        · have hends := chain_ends ha' hstep
          obtain rfl := hothers.many_of_miss (hends.eq_miss ha' (by decide))
          obtain rfl := hends.spans_eq ha' hspace' (by decide)
          exact absurd hclose (hends.not_spans ha' (by decide))
      · exact hsimple'.unique hsimple
    subst hsame
    have hcomma := comma_misses hd' hspace₂ (closing_ends (hspace₂.inside hd') hclose')
    have hnone : read text (comma *> argument) a' = .miss := by
      rw [read_skip, hcomma]
      rfl
    obtain rfl := hothers.many_of_miss hnone
    obtain rfl := hspace'.unique hspace₂
    exact hclose.unique hclose'

/-- No statement but a block goes on as it does behind the name. -/
structure Block (text heads : List Char) (i m : Nat) : Prop where
  name : Spans text identifier i m
  begins : Ends text heads i
  blocks : ∀ b k, (b = m ∨ Spans text call i b) → Spans text ws b k → ¬Ends text sequels k

namespace Block

variable {heads : List Char} (h : Block text heads i m)
include h

theorem not_typeHint : ¬Spans text typeHint i n := by
  intro hhint
  have hws := ws_spans (h.name.inside hi)
  exact h.blocks m _ (.inl rfl) hws (typeHint_sequel hi h.name hws hhint)

theorem not_assignment : ¬Spans text assignment i n := by
  intro hassign
  have hws := ws_spans (h.name.inside hi)
  exact h.blocks m _ (.inl rfl) hws (assignment_sequel hi h.name hws hassign)

/-- An expression where a block begins is nothing but the name. -/
theorem value_eq (hprompt : shut heads prompt = true) (hvalue : Spans text value i e) :
    e = m ∨ Spans text call i e := by
  refine (value_cases hi h.name (h.begins.eq_miss hi hprompt) hvalue).resolve_right ?_
  rintro ⟨b, k, hb, hws, hk, hgoes⟩
  exact h.blocks b k hb hws (hgoes.ends hk)

theorem not_value (hprompt : shut heads prompt = true) (hend : Spans text statementEnd e n) :
    ¬Spans text value i e := by
  intro hvalue
  obtain ⟨b, k, hb, hws, hends⟩ :=
    value_sequel hi h.name (h.begins.eq_miss hi hprompt) hvalue hend
  exact h.blocks b k hb hws hends

theorem not_rest (hprompt : shut heads prompt = true) (hend : Spans text statementEnd e n)
    (others : List (Parser Node)) (hothers : ∀ p ∈ others, ¬Spans text p i e) :
    ¬Spans text (.choice (others ++ [assignment, Node.expr <$> value])) i e := by
  intro hspans
  obtain ⟨p, hp, hspans⟩ := choice_spans hspans
  rcases List.mem_append.mp hp with hp | hp
  · exact hothers p hp hspans
  · simp only [List.mem_cons, List.not_mem_nil, or_false] at hp
    rcases hp with rfl | rfl
    · exact h.not_assignment hi hspans
    · exact h.not_value hi hprompt hend (spans_fmap.mp hspans)

theorem not_shut {e : Nat} {others : List (Parser Node)} (hothers : others.all (shut heads) = true) :
    ∀ p ∈ others, ¬Spans text p i e :=
  fun p hp => h.begins.not_spans hi (List.all_eq_true.mp hothers p hp)

omit h

/-- Behind the name there is something else than a parenthesis, and no statement goes on with it. -/
theorem of_sequel {p : Parser α} {e : Nat} (hname : Spans text identifier i m)
    (hbegins : Ends text heads i) (hws : Spans text ws m k) (hp : Spans text p k e)
    (hshut : shut ('(' :: sequels) p = true) : Block text heads i m := by
  have hm := hname.inside hi
  have hk := hws.inside hm
  refine ⟨hname, hbegins, ?_⟩
  rintro b k' (rfl | hcall) hws' hends
  · obtain rfl := hws.unique hws'
    exact hends.not_spans hk (shut_mono hshut fun c => List.mem_cons_of_mem '(') hp
  · obtain ⟨m', hname', hparen⟩ := call_name hi hcall
    obtain rfl := hname.unique hname'
    obtain rfl := hparen.spans_eq hm hws (by decide)
    exact hparen.not_spans hk (shut_mono hshut (by simp)) hp

theorem of_condition (hname : Spans text identifier i m) (hbegins : Ends text heads i)
    (hws : Spans text ws m k) (hcondition : Spans text parenthesized k e)
    (hws' : Spans text ws e k') (hbrace : Spans text (lit "\x7b") k' e') :
    Block text heads i m := by
  have hm := hname.inside hi
  have hk := hws.inside hm
  have he := hcondition.inside hk
  have hk' := hws'.inside he
  refine ⟨hname, hbegins, ?_⟩
  rintro b k₁ (rfl | hcall) hws₁ hends
  · obtain rfl := hws.unique hws₁
    exact hends.clash hk hcondition (by decide)
  · obtain ⟨m', hname', hparen⟩ := call_name hi hcall
    obtain rfl := hname.unique hname'
    obtain rfl := hparen.spans_eq hm hws (by decide)
    obtain rfl := call_parenthesized hi hname hcall hcondition
    obtain rfl := hws'.unique hws₁
    exact hends.clash hk' hbrace (by decide)

end Block

end AgentLang.Grammar
