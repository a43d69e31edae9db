import AgentLang.Proofs.Grammar.Sequel

/-!
# What follows an item

Items of a body follow each other up to the place where the body is closed or the text ends. From
that place backwards, no `else` follows an item, and no line end or comment is broken off.
-/

namespace AgentLang.Grammar

open List
open Verdict
open Parse (Pattern)
open Parse.Parser (lit word)

variable {α : Type} {text : List Char} {p : Parser α} {i k m n last : Nat}

/-! ### Chains -/

/-- Things of one kind that follow each other from one place to another. -/
inductive Chain (text : List Char) (p : Parser α) : Nat → List α → Nat → Prop where
  | nil (i : Nat) : Chain text p i [] i
  | cons {i n last : Nat} {v : α} {vs : List α} (hfirst : read text p i = .ok v n)
      (hothers : Chain text p n vs last) : Chain text p i (v :: vs) last

theorem Chain.bounds (h : Chain text p i vs last) (hi : i ≤ text.length) :
    i ≤ last ∧ last ≤ text.length := by
  induction h with
  | nil i => exact ⟨Nat.le_refl i, hi⟩
  | cons hfirst _ ih =>
    have hbounds := read_bounds hfirst hi
    have := ih hbounds.2.1
    omega

theorem chain_of_many (hi : i ≤ text.length) (hp : p.nullable (fun _ => false) = false)
    (h : read text (.many p) i = .ok vs last) :
    Chain text p i vs last ∧ read text p last = .miss := by
  induction hleft : text.length - i using Nat.strongRecOn generalizing i vs with
  | ind left ih =>
    rw [read_many] at h
    cases hfirst : read text p i with
    | ok v n =>
      have hbounds := read_bounds hfirst hi
      have hlt := hbounds.2.2 hp
      rw [hfirst] at h
      dsimp only at h
      rw [if_neg (by omega)] at h
      obtain ⟨us, hrest, rfl⟩ := map_eq_ok.mp h
      obtain ⟨hchain, hmiss⟩ := ih _ (by omega) hbounds.2.1 hrest rfl
      exact ⟨.cons hfirst hchain, hmiss⟩
    | miss =>
      rw [hfirst] at h
      cases h
      exact ⟨.nil _, hfirst⟩
    | dead => cases hfirst ▸ h

theorem Chain.many (h : Chain text p i vs last) (hi : i ≤ text.length)
    (hp : p.nullable (fun _ => false) = false) (hend : read text p last = .miss) :
    read text (.many p) i = .ok vs last := by
  induction h with
  | nil i => rw [read_many, hend]
  | @cons i n last v vs hfirst _ ih =>
    have hbounds := read_bounds hfirst hi
    have hlt := hbounds.2.2 hp
    rw [read_many, hfirst]
    dsimp only
    rw [if_neg (by omega), ih hbounds.2.1 hend]
    rfl

/-- A chain of one text is carried over to another one from its end backwards. What follows a thing
decides whether it is the same in the other text. -/
theorem Chain.carried (h : Chain text p i vs last) (follow : Nat → Prop) (hi : i ≤ text.length)
    (hlast : last ≤ k)
    (hstep : ∀ j v n, i ≤ j → j ≤ k → read text p j = .ok v n → n ≤ k → follow n →
      read target p j = .ok v n ∧ follow j)
    (hfollow : follow last) : Chain target p i vs last ∧ follow i := by
  induction h with
  | nil i => exact ⟨.nil i, hfollow⟩
  | @cons i n last v vs hfirst hothers ih =>
    have hbounds := read_bounds hfirst hi
    have hn : n ≤ k := Nat.le_trans (hothers.bounds hbounds.2.1).1 hlast
    obtain ⟨hchain, hnext⟩ := ih hbounds.2.1 hlast (fun j v m hj => hstep j v m (by omega)) hfollow
    obtain ⟨hsame, hhere⟩ := hstep i v n (Nat.le_refl i) (by omega) hfirst hn hnext
    exact ⟨.cons hsame hchain, hhere⟩

/-! ### Items -/

theorem item_spans (h : Spans text bodyItem i n) : ∃ k, Spans text ws i k ∧
    (Spans text newline k n ∨ Spans text comment k n ∨ Spans text blockComment k n ∨
      Spans text terminatedStatement k n) := by
  obtain ⟨k, hws, hrest⟩ := spans_skip.mp h
  obtain ⟨p, hp, hspans⟩ := choice_spans hrest
  simp only [mem_cons, not_mem_nil, or_false] at hp
  rcases hp with rfl | rfl | rfl | rfl
  · exact ⟨k, hws, .inl hspans⟩
  · exact ⟨k, hws, .inr (.inl hspans)⟩
  · exact ⟨k, hws, .inr (.inr (.inl hspans))⟩
  · exact ⟨k, hws, .inr (.inr (.inr hspans))⟩

variable (hi : i ≤ text.length)
include hi

theorem newline_cases (h : Spans text newline i n) :
    Spans text (lit "\n") i n ∨ Spans text (lit "\r") i (i + 1) ∧ Spans text (lit "\n") (i + 1) n := by
  have hline : Spans text (.token Shape.lineEnd "newline") i n := spans_fmap.mp h
  obtain ⟨m, hreturn, hfeed⟩ := (spans_token_seq hi).mp hline
  have hm := hreturn.inside hi
  rcases spans_token_opt hi hreturn with hreturn | rfl
  · have hreturn := spans_token_lit hi hreturn
    obtain rfl : m = i + 1 := (spans_lit hi hreturn).2
    exact .inr ⟨hreturn, spans_token_lit hm hfeed⟩
  · exact .inl (spans_token_lit hm hfeed)

omit hi in
theorem drop_of_lit {literal : String} (hliteral : literal.toList = [c]) (hi : i ≤ text.length)
    (h : Spans text (lit literal) i n) : n = i + 1 ∧ ∃ rest, text.drop i = c :: rest := by
  obtain ⟨hstarts, hn⟩ := spans_lit hi h
  rw [hliteral] at hstarts hn
  obtain ⟨rest, hrest⟩ := isPrefixOf_iff_prefix.mp hstarts
  exact ⟨hn, rest, hrest.symm⟩

theorem space_after_newline (hline : Spans text newline i n) (hspace : Spans text space i m) :
    Spans text space n m := by
  rcases newline_cases hi hline with hfeed | ⟨hreturn, hfeed⟩
  · obtain ⟨rfl, rest, hrest⟩ := drop_of_lit rfl hi hfeed
    exact space_step hi hrest (by decide) hspace
  · obtain ⟨-, rest, hrest⟩ := drop_of_lit rfl hi hreturn
    have hi' := hreturn.inside hi
    obtain ⟨rfl, rest', hrest'⟩ := drop_of_lit rfl hi' hfeed
    exact space_step hi' hrest' (by decide) (space_step hi hrest (by decide) hspace)

theorem gap_of_comment
    (h : Spans text (.token Shape.lineComment name) i n ∨
      Spans text (.token Shape.blockComment name) i n) :
    Spans text (.token gap name') i n := by
  have hslash : Ends text ['/'] i := by
    rcases h with h | h
    · exact h.ends _ hi rfl fun c hc => by simpa [begins, Shape.lineComment] using hc
    · exact h.ends _ hi rfl fun c hc => by simpa [begins, Shape.blockComment] using hc
  have hblank : read text (.token (.plus (Shape.among " \t\r\n")) name') i = .miss :=
    hslash.eq_miss hi rfl
  have halt : read text (.token gap name') i = _ := read_token_alt hi
  have halt' : read text (.token (Shape.lineComment <|> Shape.blockComment) name') i = _ :=
    read_token_alt hi
  rw [Spans, halt, read_alt, hblank, miss_orElse, halt', read_alt]
  rcases h with hline | hblock
  · obtain ⟨v, hline⟩ : Spans text (.token Shape.lineComment name') i n := spans_token_name hi hline
    exact ⟨v, orElse_eq_ok.mpr (.inl hline)⟩
  · obtain ⟨v, hblock⟩ : Spans text (.token Shape.blockComment name') i n :=
      spans_token_name hi hblock
    refine ⟨v, orElse_eq_ok.mpr (.inr ⟨?_, hblock⟩)⟩
    by_contra hne
    obtain ⟨_, u, hline⟩ := spans_of_ne_miss rfl hne
    exact comments_exclude hi hline hblock

theorem space_after_gap (hgap : Spans text (.token gap "whitespace") i n)
    (hspace : Spans text space i m) : Spans text space n m := by
  have hlt := (hgap.bounds hi).2.2 rfl
  rw [space_spans (hgap.inside hi)]
  exact (hgap.many_iff (by omega)).mp ((space_spans hi).mp hspace)

/-- Free space before an item goes on behind it, unless a statement stands where it ends. -/
theorem space_after_item (hitem : Spans text bodyItem i n) (hspace : Spans text space i k) :
    Spans text space n k ∨
      ∃ m, Spans text statement k m ∧ Spans text statementEnd m n := by
  obtain ⟨j, hblanks, hcases⟩ := item_spans hitem
  have hj := hblanks.inside hi
  have hspace := space_after_ws hi hblanks hspace
  rcases hcases with hline | hcomment | hcomment | hstatement
  · exact .inl (space_after_newline hj hline hspace)
  · have hline := spans_fmap.mp (spans_fmap.mp hcomment)
    exact .inl (space_after_gap hj (gap_of_comment hj (.inl hline)) hspace)
  · have hblock := spans_fmap.mp hcomment
    exact .inl (space_after_gap hj (gap_of_comment hj (.inr hblock)) hspace)
  · obtain ⟨m, hstatement, hend⟩ := spans_keep.mp hstatement
    have hgap : read text (.token gap "whitespace") j = .miss := by
      by_contra hne
      refine (ends_of_ne_miss [' ', '\t', '\r', '\n', '/'] hne hj rfl fun c hc => ?_).clash hj
        hstatement (by decide)
      simpa [begins, gap, Shape.among, Shape.lineComment, Shape.blockComment, or_assoc] using hc
    obtain rfl : k = j := ((space_spans hj).mp hspace).many_of_miss hgap
    exact .inr ⟨m, hstatement, hend⟩

/-- Free space behind a statement goes on behind its end, or it stops at a semicolon. -/
theorem space_after_end (hend : Spans text statementEnd i n) (hspace : Spans text space i k) :
    Spans text space n k ∨ Ends text [';'] k := by
  have hblanks := ws_spans hi
  have hspace := space_after_ws hi hblanks hspace
  rcases statementEnd_cases hend with hsemicolons | ⟨-, hblanks', -⟩
  · have hends := semicolons_ends hi hblanks hsemicolons
    obtain rfl := hends.spans_eq (hblanks.inside hi) hspace (by decide)
    exact .inr hends
  · obtain rfl := hblanks.unique hblanks'
    exact .inl hspace

/-! ### No `else` follows -/

/-- How the other branch of a condition begins. -/
def elseOpening : Parser String :=
  space *> word "else" *> ws *> .choice [word "if", lit "\x7b"]

theorem else_not_statement (helse : Spans text (word "else") i y) (hws : Spans text ws y z)
    (hbranch : Spans text (.choice [word "if", lit "\x7b"]) z e)
    (hend : Spans text statementEnd n m) : ¬Spans text statement i n := by
  intro h
  have hbegins : Ends text ['e'] i := helse.ends _ hi rfl fun c hc => by simpa [begins] using hc
  obtain ⟨v, helse⟩ := helse
  have hname : Spans text identifier i y :=
    read_identifier_of_word hi helse (by decide) (by decide)
  have hblock : Block text ['e'] i y := Block.of_sequel hi hname hbegins hws hbranch (by decide)
  rw [Spans, read_statement] at h
  have hnone : ∀ {p : Parser Node}, shut ['e'] p = true → ¬Spans text p i n :=
    fun hshut => hbegins.not_spans hi hshut
  refine hblock.not_rest hi (by decide) hend [importStatement, functionDefinition,
    graphNodeDefinition, typeHint, specialVar, returnStatement, goto, usesTool, ifElse, whileLoop,
    selection, messageThread, timeBlock] ?_ h
  simp only [forall_mem_cons, not_mem_nil, false_imp_iff, implies_true, and_true]
  exact ⟨hnone (by decide), hnone (by decide), hnone (by decide), hblock.not_typeHint hi,
    hnone (by decide), hnone (by decide), hnone (by decide), hnone (by decide), hnone (by decide),
    hnone (by decide), hnone (by decide), hnone (by decide), hnone (by decide)⟩

theorem else_misses_before_item (hitem : Spans text bodyItem i n)
    (helse : read text elseOpening n = .miss) : read text elseOpening i = .miss := by
  by_contra hne
  obtain ⟨e, hspans⟩ := spans_of_ne_miss rfl hne
  simp only [elseOpening, spans_skip] at hspans
  obtain ⟨z, ⟨y, ⟨x, hspace, hword⟩, hws⟩, hbranch⟩ := hspans
  rcases space_after_item hi hitem hspace with hspace' | ⟨m, hstatement, hend⟩
  · refine Spans.ne_miss (n := e) ?_ helse
    simp only [elseOpening, spans_skip]
    exact ⟨z, ⟨y, ⟨x, hspace', hword⟩, hws⟩, hbranch⟩
  · exact else_not_statement (hspace.inside hi) hword hws hbranch hend hstatement

theorem else_misses_before_end (hend : Spans text statementEnd i n)
    (helse : read text elseOpening n = .miss) : read text elseOpening i = .miss := by
  by_contra hne
  obtain ⟨e, hspans⟩ := spans_of_ne_miss rfl hne
  simp only [elseOpening, spans_skip] at hspans
  obtain ⟨z, ⟨y, ⟨x, hspace, hword⟩, hws⟩, hbranch⟩ := hspans
  rcases space_after_end hi hend hspace with hspace' | hsemicolon
  · refine Spans.ne_miss (n := e) ?_ helse
    simp only [elseOpening, spans_skip]
    exact ⟨z, ⟨y, ⟨x, hspace', hword⟩, hws⟩, hbranch⟩
  · exact hsemicolon.clash (hspace.inside hi) hword (by decide)

/-! ### Tails -/

/-- What is left behind an item has no `else` and is not a part of a line end or a comment. -/
structure Tail (text : List Char) (n : Nat) : Prop where
  noElse : read text elseOpening n = .miss
  whole : ∀ c, text.drop n = [c] → c ∉ ['\r', '/']

omit hi

namespace Tail

theorem of_end (hn : text.length ≤ n) (hn' : n ≤ text.length) : Tail text n := by
  have hends : Ends text [] n := ends_of_le hn
  refine ⟨hends.eq_miss hn' (by decide), fun c hc => ?_⟩
  rw [drop_eq_nil_of_le hn] at hc
  cases hc

include hi

theorem of_closing (hspace : Spans text space i k) (hclose : Spans text (closing "\x7d") k n) :
    Tail text i := by
  have hk := (hspace.bounds hi).2
  have hbrace : Ends text ['\x7d'] k := hclose.ends _ hk.1 rfl fun c hc => by
    simpa [begins, closing] using hc
  have hn := hclose.bounds hk.1
  constructor
  · by_contra hne
    obtain ⟨e, hspans⟩ := spans_of_ne_miss rfl hne
    simp only [elseOpening, spans_skip] at hspans
    obtain ⟨_, ⟨_, ⟨x, hspace', hword⟩, -⟩, -⟩ := hspans
    obtain rfl := hspace.unique hspace'
    exact hbrace.clash hk.1 hword (by decide)
  · intro c hc hmem
    have hlength := congrArg List.length hc
    rw [length_drop, length_singleton] at hlength
    have hlt := hn.2.2 rfl
    obtain rfl : k = i := by
      have := (hspace.bounds hi).1
      omega
    have hc' := hbrace c (by rw [hc]; rfl)
    rw [List.mem_singleton.mp hc'] at hmem
    exact absurd hmem (by decide)

theorem of_item (hitem : Spans text bodyItem i n) (h : Tail text n) : Tail text i := by
  refine ⟨else_misses_before_item hi hitem h.noElse, fun c hc hmem => ?_⟩
  have hlength := congrArg List.length hc
  rw [length_drop, length_singleton] at hlength
  have hends : Ends text ['\r', '/'] i := by
    intro d hd
    rw [hc] at hd
    cases hd
    exact hmem
  obtain ⟨k, hblanks, hcases⟩ := item_spans hitem
  obtain rfl := hends.spans_eq hi hblanks (by decide)
  have hn := hitem.inside hi
  have htwo : ∀ {literal : List Char}, literal.length = 2 →
      ¬literal.isPrefixOf (text.drop k) = true := by
    intro literal hliteral hstarts
    have hle := (List.isPrefixOf_iff_prefix.mp hstarts).length_le
    rw [length_drop] at hle
    omega
  rcases hcases with hline | hcomment | hcomment | hstatement
  · rcases newline_cases hi hline with hfeed | ⟨hreturn, hfeed⟩
    · exact hends.clash hi hfeed (by decide)
    · have := (hfeed.bounds (hreturn.inside hi)).2.2 rfl
      omega
  · obtain ⟨v, hcomment⟩ := spans_fmap.mp (spans_fmap.mp hcomment)
    exact htwo rfl (prefix_of_token hi hcomment)
  · obtain ⟨v, hcomment⟩ := spans_fmap.mp hcomment
    exact htwo rfl (prefix_of_token hi hcomment)
  · exact hends.clash hi hstatement (by decide)

end Tail

/-! ### What free space leads to -/

/-- Free space leads to a statement or to the mark that closes the body, before the last place. -/
def Lands (text : List Char) (last i : Nat) : Prop :=
  ∀ k, Spans text space i k → k < last ∧ ((∃ n, Spans text (closing "\x7d") k n) ∨
    ∃ m n, Spans text statement k m ∧ Spans text statementEnd m n)

namespace Lands

theorem of_closing (hi : i ≤ text.length) (hspace : Spans text space i k)
    (hclose : Spans text (closing "\x7d") k n) (hn : n ≤ last) : Lands text last i := by
  intro k' hspace'
  obtain rfl := hspace.unique hspace'
  have hlt := (hclose.bounds (hspace.inside hi)).2.2 rfl
  exact ⟨Nat.lt_of_lt_of_le hlt hn, .inl ⟨n, hclose⟩⟩

theorem of_item (hi : i ≤ text.length) (hitem : Spans text bodyItem i n) (hn : n ≤ last)
    (h : Lands text last n) : Lands text last i := by
  intro k hspace
  rcases space_after_item hi hitem hspace with hspace' | ⟨m, hstatement, hend⟩
  · exact h k hspace'
  · have hm := hstatement.bounds (hspace.inside hi)
    have hlt := hm.2.2 rfl
    have hle := (hend.bounds hm.2.1).1
    exact ⟨by omega, .inr ⟨m, n, hstatement, hend⟩⟩

theorem not_ends (h : Lands text last i) (hi : i ≤ text.length) (hspace : Spans text space i k)
    (hclosing : shut heads (closing "\x7d") = true) (hstatement : shut heads statement = true) :
    ¬Ends text heads k := by
  intro hends
  have hk := hspace.inside hi
  rcases (h k hspace).2 with ⟨n, hspans⟩ | ⟨m, n, hspans, -⟩
  · exact hends.not_spans hk hclosing hspans
  · exact hends.not_spans hk hstatement hspans

theorem noElse (h : Lands text last i) (hi : i ≤ text.length) : read text elseOpening i = .miss := by
  by_contra hne
  obtain ⟨e, hspans⟩ := spans_of_ne_miss rfl hne
  simp only [elseOpening, spans_skip] at hspans
  obtain ⟨_, ⟨_, ⟨k, hspace, hword⟩, hws⟩, hbranch⟩ := hspans
  have hk := hspace.inside hi
  rcases (h k hspace).2 with ⟨n, hclose⟩ | ⟨m, n, hstatement, hend⟩
  · have hbegins : Ends text ['e'] k := hword.ends _ hk rfl fun c hc => by simpa [begins] using hc
    exact hbegins.clash hk hclose (by decide)
  · exact else_not_statement hk hword hws hbranch hend hstatement

theorem noComma (h : Lands text last i) (hi : i ≤ text.length) :
    read text (space *> lit "," : Parser String) i = .miss := by
  by_contra hne
  obtain ⟨e, hspans⟩ := spans_of_ne_miss rfl hne
  obtain ⟨k, hspace, hcomma⟩ := spans_skip.mp hspans
  have hends : Ends text [','] k := ends_of_starts (spans_lit (hspace.inside hi) hcomma).1
  exact h.not_ends hi hspace (by decide) (by decide) hends

end Lands

/-! ### Ends of bodies -/

theorem statement_misses_at_end (hi : i ≤ text.length) (hblanks : Spans text ws i k)
    (hspace : Spans text space i m) (hclose : Spans text (closing "\x7d") m n)
    (hline : read text comment k = .miss) (hblock : read text blockComment k = .miss) :
    read text terminatedStatement k = .miss := by
  have hk := hblanks.inside hi
  have hspace := space_after_ws hi hblanks hspace
  have hends : Ends text [' ', '\t', '\r', '\n', '\x7d'] k := by
    by_cases hgap : read text (.token gap "whitespace") k = .miss
    · obtain rfl := ((space_spans hk).mp hspace).many_of_miss hgap
      refine (hclose.ends ['\x7d'] hk rfl fun c hc => ?_).mono (by decide)
      simpa [begins, closing] using hc
    · have hmiss : ∀ {shape : Pattern} {name : String}, read text (.token shape name) k = .miss →
          read text (.token shape "whitespace") k = .miss := by
        intro shape name hmiss
        by_contra hne
        obtain ⟨_, hspans⟩ := spans_of_ne_miss rfl hne
        exact (spans_token_name hk hspans).ne_miss hmiss
      have hblank : read text (.token (.plus (Shape.among " \t\r\n")) "whitespace") k ≠ .miss := by
        intro hblank
        have halt : read text (.token gap "whitespace") k = _ := read_token_alt hk
        have halt' : read text (.token (Shape.lineComment <|> Shape.blockComment) "whitespace") k = _ :=
          read_token_alt hk
        rw [comment, commentText, read_fmap, read_fmap, map_eq_miss, map_eq_miss] at hline
        rw [blockComment, read_fmap, map_eq_miss] at hblock
        refine hgap ?_
        rw [halt, read_alt, hblank, halt', read_alt, hmiss hline, hmiss hblock]
        rfl
      refine (ends_of_ne_miss [' ', '\t', '\r', '\n'] hblank hk rfl fun c hc => ?_).mono (by decide)
      simpa [begins, Shape.among] using hc
  exact hends.eq_miss hk (by decide)

end AgentLang.Grammar
