import AgentLang.Proofs.Grammar.InsertQuotation
import AgentLang.Proofs.Grammar.Spelling
import AgentLang.Proofs.Grammar.Succession

/-!
# Quotations are read back as they are written

Strings on one line, strings over several lines and prompts are segments between two marks. Text and
interpolations alternate, so the segments are known from what is written, and what was read is what
is written for the segments up to blanks around interpolated names.
-/

namespace AgentLang

open List

/-! ### Segments in writing -/

/-- A segment as it is written without blanks. -/
def Segment.letters : Segment → List Char
  | .text value => value.toList
  | .interpolation name => "$\x7b".toList ++ name.toList ++ "\x7d".toList

/-- A word stands for a segment: it is its text, or its name between blanks. -/
inductive Segment.Spelled : Segment → List Char → Prop where
  | text (value : String) : Spelled (.text value) value.toList
  | interpolation {name : String} {before after : List Char}
      (hbefore : ∀ c ∈ before, c ∈ [' ', '\t']) (hafter : ∀ c ∈ after, c ∈ [' ', '\t']) :
      Spelled (.interpolation name)
        ("$\x7b".toList ++ before ++ name.toList ++ after ++ "\x7d".toList)

/-- No text is empty, and no two texts are neighbours. -/
def Segment.Alternate (segments : List Segment) : Prop :=
  (∀ value, .text value ∈ segments → value ≠ "") ∧
    segments.IsChain fun one next => ∀ value value', ¬(one = .text value ∧ next = .text value')

namespace Grammar

open Verdict
open Parse (Cursor Reach Pattern Engine)
open Parse.Parser (lit)

/-- The kinds of text with interpolations. -/
inductive Quotation where
  | line
  | multiline
  | prompt

namespace Quotation

def mark : Quotation → String
  | line => "\""
  | multiline => "\"\"\""
  | prompt => "`"

/-- A character of the text, as it is written. -/
def item : Quotation → Pattern
  | line => Shape.except "\"\\$\n" <|> (.lit "\\" ++ Shape.except "\n") <|> Shape.dollar
  | multiline => Shape.multilineItem
  | prompt => Shape.except "`\\$" <|> (.lit "\\" ++ Shape.any) <|> Shape.dollar

def toExpr : Quotation → List Segment → Expr
  | line => .string
  | multiline => .multiline
  | prompt => (.prompt · none)

def parser : Quotation → Parser Expr
  | line => stringLiteral
  | multiline => multilineString
  | prompt => backtickPrompt

/-- The segments as they are written between the marks. -/
def letters (q : Quotation) (segments : List Segment) : List Char :=
  q.mark.toList ++ (segments.map Segment.letters).flatten ++ q.mark.toList

theorem parser_eq (q : Quotation) : q.parser = q.toExpr <$> quoted q.mark (.plus q.item) := by
  cases q <;> rfl

/-! ### The characters of a text -/

variable {q : Quotation} {rest : List Char}

theorem item_moves (q : Quotation) : q.item.nullable = false := by
  cases q <;> rfl

/-- A character is known from its neighbours within a mark or the beginning of an interpolation. -/
theorem item_sight (q : Quotation) :
    ∃ n, q.item.sight? = some n ∧ n ≤ q.mark.toList.length + 1 ∧ n ≤ "$\x7b".toList.length + 1 := by
  cases q
  · exact ⟨2, by decide⟩
  · exact ⟨3, by decide⟩
  · exact ⟨2, by decide⟩

theorem item_opens (q : Quotation) (rest : List Char) :
    q.item.match? ("$\x7b".toList ++ rest) = none := by
  cases q <;> rfl

theorem item_closes (q : Quotation) (rest : List Char) :
    q.item.match? (q.mark.toList ++ rest) = none := by
  cases q <;> rfl

theorem mark_opens (q : Quotation) (rest : List Char) :
    ¬"$\x7b".toList <+: q.mark.toList ++ rest := by
  cases q <;> simp [mark]

/-! ### Interpolated names -/

theorem spelled_letters (name : String) :
    (Segment.interpolation name).Spelled (Segment.interpolation name).letters := by
  have hnone : ∀ c ∈ ([] : List Char), c ∈ [' ', '\t'] := fun _ hc => absurd hc not_mem_nil
  have h : (Segment.interpolation name).Spelled _ := .interpolation hnone hnone
  rwa [append_nil, append_nil] at h

theorem interpolation_head (h : (Segment.interpolation name).Spelled word) :
    "$\x7b".toList <+: word := by
  cases h with
  | interpolation hbefore hafter =>
    rw [append_assoc, append_assoc, append_assoc]
    exact prefix_append _ _

theorem takes_identifier (h : Shape.identifier.Accepts name)
    (hrest : rest.head?.any Engine.isWordChar = false) : Shape.identifier.Takes name rest := by
  obtain ⟨_, others, ⟨c, hc, rfl⟩, hothers, rfl⟩ := h
  have hstart : Shape.wordStart.Takes [c] (others ++ rest) := if_pos hc
  exact hstart.append (.run (Pattern.accepts_of_star hothers) hrest)

theorem takes_blanks (h : ∀ c ∈ blanks, c ∈ [' ', '\t'])
    (hrest : rest.head?.any (" \t".toList.contains ·) = false) :
    (Pattern.star (Shape.among " \t")).Takes blanks rest :=
  .run (fun c hc => contains_iff_mem.mpr (h c hc)) hrest

theorem reads_ws (h : ∀ c ∈ blanks, c ∈ [' ', '\t'])
    (hrest : rest.head?.any (" \t".toList.contains ·) = false) :
    Reads ws (String.ofList blanks) blanks rest :=
  .token _ (takes_blanks h hrest)

theorem reads_interpolation (hname : Shape.identifier.Accepts name.toList)
    (h : (Segment.interpolation name).Spelled word) :
    Reads interpolation (.interpolation name) word rest := by
  cases h with
  | @interpolation _ before after hbefore hafter =>
    have hclose : ("\x7d".toList ++ rest).head?.any (" \t".toList.contains ·) = false := rfl
    have hafterReads := reads_ws hafter hclose
    have hnameEnds : (after ++ ("\x7d".toList ++ rest)).head?.any Engine.isWordChar = false := by
      cases after with
      | nil => rfl
      | cons c after =>
        have hc := hafter c mem_cons_self
        fin_cases hc <;> rfl
    have hnameReads : Reads identifier name name.toList (after ++ ("\x7d".toList ++ rest)) := by
      have h := Reads.token "identifier" (takes_identifier hname hnameEnds)
      rwa [String.ofList_toList] at h
    have hbeforeEnds : (name.toList ++ (after ++ ("\x7d".toList ++ rest))).head?.any
        (" \t".toList.contains ·) = false := by
      obtain ⟨_, others, ⟨c, hc, rfl⟩, -, hletters⟩ := hname
      have hblank : ∀ d ∈ [' ', '\t'], c ≠ d := by
        rintro d hd rfl
        fin_cases hd <;> cases hc
      rw [hletters]
      simpa using hblank
    have hbeforeReads := reads_ws hbefore hbeforeEnds
    have hopen : Reads (lit "$\x7b") "$\x7b" "$\x7b".toList
        (before ++ (name.toList ++ (after ++ ("\x7d".toList ++ rest)))) := .lit _
    have hall := (((hopen.skip hbeforeReads).skip hnameReads).keep hafterReads).keep (.lit "\x7d")
    exact hall.map Segment.interpolation

theorem misses_interpolation (h : ¬"$\x7b".toList <+: rest) : Misses interpolation rest :=
  ((((Misses.lit h).skip.skip).keep).keep).map _

theorem opening_of_takes (h : (Pattern.plus q.item).Takes w rest) :
    ¬"$\x7b".toList <+: w ++ rest := by
  rintro ⟨tail, htail⟩
  apply (h.plus_bounds (item_moves q)).2.1
  rw [← htail]
  exact item_opens q tail

theorem match?_plus_eq_none {item : Pattern} (h : item.match? rest = none) :
    (Pattern.plus item).match? rest = none := by
  change Option.bind (item.match? rest) _ = none
  rw [h]
  rfl

theorem spelled_of_read {segment : Segment} (hi : i ≤ text.length)
    (h : read text interpolation i = .ok segment n) :
    ∃ name word, segment = .interpolation name ∧ Shape.identifier.Accepts name.toList ∧
      (Segment.interpolation name).Spelled word ∧ text.drop i = word ++ text.drop n := by
  simp only [interpolation, read_fmap, read_keep, read_skip, map_eq_ok, bind_eq_ok] at h
  obtain ⟨_, ⟨_, k₄, ⟨_, k₃, ⟨_, k₂, ⟨_, k₁, hopen, hbefore⟩, hname⟩, _, hafter, rfl⟩, _, hclose,
    rfl⟩, rfl⟩ := h
  have hk₁ := (read_bounds hopen hi).2.1
  have hk₂ := (read_bounds hbefore hk₁).2.1
  have hk₃ := (read_bounds hname hk₂).2.1
  have hk₄ := (read_bounds hafter hk₃).2.1
  obtain ⟨hbeforeDrop, hbeforeTakes⟩ := drop_of_token hk₁ hbefore
  obtain ⟨hnameDrop, hnameTakes⟩ := drop_of_token hk₂ hname
  obtain ⟨hafterDrop, hafterTakes⟩ := drop_of_token hk₃ hafter
  have hblanks : ∀ {w rest}, (Pattern.star (Shape.among " \t")).Takes w rest →
      ∀ c ∈ w, c ∈ [' ', '\t'] := by
    intro w rest htakes c hc
    exact contains_iff_mem.mp (Pattern.accepts_of_star (Pattern.accepts_of_takes htakes) c hc)
  refine ⟨_, _, rfl, Pattern.accepts_of_takes hnameTakes,
    .interpolation (hblanks hbeforeTakes) (hblanks hafterTakes), ?_⟩
  rw [drop_of_text hi hopen, hbeforeDrop, hnameDrop, hafterDrop, drop_of_text hk₄ hclose]
  simp only [append_assoc]

/-! ### Segments and their words -/

/-- Segments are spelled by words before a rest, and no text could go on. -/
inductive Flow (item : Pattern) (rest : List Char) :
    List Segment → List (List Char) → Prop where
  | nil : Flow item rest [] []
  | interpolation {name : String} {word : List Char} {segments : List Segment}
      {words : List (List Char)} (hname : Shape.identifier.Accepts name.toList)
      (hword : (Segment.interpolation name).Spelled word) (hothers : Flow item rest segments words) :
      Flow item rest (.interpolation name :: segments) (word :: words)
  | text {value : String} {segments : List Segment} {words : List (List Char)}
      (htakes : (Pattern.plus item).Takes value.toList (words.flatten ++ rest))
      (hothers : Flow item rest segments words) :
      Flow item rest (.text value :: segments) (value.toList :: words)

namespace Flow

variable {segments : List Segment} {words : List (List Char)}

theorem spelled {item : Pattern} (h : Flow item rest segments words) :
    List.Forall₂ Segment.Spelled segments words := by
  induction h with
  | nil => exact .nil
  | interpolation hname hword _ ih => exact .cons hword ih
  | text htakes _ ih => exact .cons (.text _) ih

theorem alternate (h : Flow q.item rest segments words) : Segment.Alternate segments := by
  induction h with
  | nil => exact ⟨fun _ hmem => absurd hmem not_mem_nil, .nil⟩
  | @interpolation name word segments words hname hword hothers ih =>
    refine ⟨fun value hmem => ih.1 value ?_, ?_⟩
    · exact (mem_cons.mp hmem).resolve_left nofun
    · cases segments with
      | nil => exact .singleton _
      | cons next segments => exact .cons_cons nofun ih.2
  | @text value segments words htakes hothers ih =>
    obtain ⟨hne, -, hstop⟩ := htakes.plus_bounds (item_moves q)
    refine ⟨fun value' hmem => ?_, ?_⟩
    · rcases mem_cons.mp hmem with heq | hmem
      · cases heq
        exact fun hempty => hne (hempty ▸ rfl)
      · exact ih.1 value' hmem
    · cases hothers with
      | nil => exact .singleton _
      | interpolation hname hword hothers => exact .cons_cons nofun ih.2
      | text htakes' hothers =>
        have hbegins := (htakes'.plus_bounds (item_moves q)).2.1
        rw [flatten_cons, append_assoc] at hstop
        exact absurd hstop hbegins

/-- What follows a mark, and the blanks around names, do not matter. -/
theorem letters (tail : List Char) (h : Flow q.item (q.mark.toList ++ rest) segments words) :
    Flow q.item (q.mark.toList ++ tail) segments (segments.map Segment.letters) := by
  obtain ⟨n, hsight, hmark, hopening⟩ := q.item_sight
  induction h with
  | nil => exact .nil
  | interpolation hname hword _ ih => exact .interpolation hname (spelled_letters _) ih
  | @text value segments words htakes hothers ih =>
    refine .text ?_ ih
    cases hothers with
    | nil =>
      simp only [map_nil, flatten_nil, nil_append] at htakes ⊢
      exact htakes.plus_congr (item_moves q) hsight hmark (item_closes q tail)
    | @interpolation name word segments words hname hword hothers =>
      obtain ⟨after, rfl⟩ := interpolation_head hword
      rw [flatten_cons, append_assoc, append_assoc] at htakes
      simp only [map_cons, flatten_cons, Segment.letters, append_assoc]
      exact htakes.plus_congr (item_moves q) hsight hopening (item_opens q _)
    | @text value' segments words htakes' hothers =>
      have hstop := (htakes.plus_bounds (item_moves q)).2.2
      rw [flatten_cons, append_assoc] at hstop
      exact absurd hstop (htakes'.plus_bounds (item_moves q)).2.1

/-- Words before a mark are read as the segments that they stand for. -/
theorem reads (h : Flow q.item (q.mark.toList ++ rest) segments words) :
    Reads (Grammar.segments (.plus q.item)) segments words.flatten (q.mark.toList ++ rest) := by
  induction h with
  | nil =>
    apply Reads.many_nil
    apply Misses.choice_cons (misses_interpolation (mark_opens q rest))
    exact .choice_cons ((Misses.token (match?_plus_eq_none (item_closes q rest))).map _) .choice_nil
  | interpolation hname hword _ ih =>
    refine .many_cons ?_ (reads_interpolation hname hword).choice_head ih
    exact ne_nil_of_length_pos ((interpolation_head hword).length_le.trans_lt' (by decide))
  | text htakes _ ih =>
    refine .many_cons (htakes.plus_bounds (item_moves q)).1 ?_ ih
    apply Reads.choice_tail (misses_interpolation (opening_of_takes htakes))
    have htoken := (Reads.token "text" htakes).map Segment.text
    rw [String.ofList_toList] at htoken
    exact htoken.choice_head

end Flow

/-- What was read as segments are words that stand for them. -/
theorem flow_of_read {segments : List Segment} (hi : i ≤ text.length)
    (h : read text (Grammar.segments (.plus q.item)) i = .ok segments n) :
    ∃ words, text.drop i = words.flatten ++ text.drop n ∧ Flow q.item (text.drop n) segments words := by
  have hnullable : (Parse.Parser.choice [interpolation,
      .text <$> Parse.Parser.token (.plus q.item) "text"]).nullable (fun _ => false) = false := by
    cases q <;> rfl
  obtain ⟨hchain, -⟩ := chain_of_many hi hnullable h
  clear h
  induction hchain with
  | nil i => exact ⟨[], rfl, .nil⟩
  | @cons i m n segment segments hfirst _ ih =>
    have hm := (read_bounds hfirst hi).2.1
    obtain ⟨words, hdrop, hflow⟩ := ih hm
    rw [read_choice_cons] at hfirst
    rcases orElse_eq_ok.mp hfirst with hhole | ⟨-, hothers⟩
    · obtain ⟨name, word, rfl, hname, hword, hstart⟩ := spelled_of_read hi hhole
      refine ⟨word :: words, ?_, .interpolation hname hword hflow⟩
      rw [hstart, hdrop, flatten_cons, append_assoc]
    · rw [read_choice_cons, read_choice_nil, orElse_miss, read_fmap] at hothers
      obtain ⟨value, htoken, rfl⟩ := map_eq_ok.mp hothers
      obtain ⟨hstart, htakes⟩ := drop_of_token hi htoken
      rw [hdrop] at hstart htakes
      refine ⟨value.toList :: words, ?_, .text htakes hflow⟩
      rw [hstart, flatten_cons, append_assoc]

theorem flow_of_quoted {segments : List Segment}
    (h : read text (quoted q.mark (.plus q.item)) pos = .ok segments n) :
    ∃ words, (text.take n).drop pos = q.mark.toList ++ words.flatten ++ q.mark.toList ∧
      Flow q.item (q.mark.toList ++ text.drop n) segments words := by
  have hnullable : (quoted q.mark (.plus q.item)).nullable (fun _ => false) = false := by
    cases q <;> rfl
  have hpos := le_of_read hnullable h
  have hn := read_bounds h hpos
  simp only [quoted, Parse.Parser.between, read_keep, read_skip, bind_eq_ok, map_eq_ok] at h
  obtain ⟨_, k, ⟨_, i, hopen, hsegments⟩, _, hclose, rfl⟩ := h
  have hi := (read_bounds hopen hpos).2.1
  have hk := (read_bounds hsegments hi).2.1
  obtain ⟨words, hdrop, hflow⟩ := flow_of_read hi hsegments
  have hmark := drop_of_text hk hclose
  rw [hmark] at hdrop hflow
  refine ⟨words, slice_of_drop hn.1 hn.2.1 ?_, hflow⟩
  rw [drop_of_text hpos hopen, hdrop]
  simp only [append_assoc]

/-- The letters of segments that were read are read back. -/
theorem reads_letters {segments : List Segment}
    (h : Flow q.item (q.mark.toList ++ rest) segments words) :
    ReadsWhole q.parser (q.toExpr segments) (q.letters segments) := by
  have hsegments := (h.letters []).reads
  have hopen : Reads (lit q.mark) q.mark q.mark.toList
      ((segments.map Segment.letters).flatten ++ (q.mark.toList ++ [])) := .lit q.mark
  have hclose : Reads _ _ _ [] := .text q.mark.toList ("closing '" ++ q.mark ++ "'")
  rw [parser_eq]
  exact (((hopen.skip hsegments).keep hclose).map q.toExpr).whole

end Quotation

/-- Whatever quotation is read somewhere in a text: no text in its segments is empty, no two texts
are neighbours, the segments as they are written are read as the same quotation and nothing is left,
and the source was written like that, with blanks around interpolated names at most. -/
theorem quotation_read_back (q : Quotation) {text : List Char} {pos : Nat} {e : Expr} {next : Cursor}
    {reach : Reach} (h : run? q.parser text pos = some ⟨.success e next, reach⟩) :
    ∃ segments words, e = q.toExpr segments ∧ Segment.Alternate segments ∧
      ReadsWhole q.parser e (q.letters segments) ∧
      (text.take next.pos).drop pos = q.mark.toList ++ words.flatten ++ q.mark.toList ∧
      List.Forall₂ Segment.Spelled segments words := by
  have hread : read text q.parser pos = .ok e next.pos := read_eq_of_run? h
  rw [Quotation.parser_eq, read_fmap] at hread
  obtain ⟨segments, hquoted, rfl⟩ := map_eq_ok.mp hread
  obtain ⟨words, hsource, hflow⟩ := Quotation.flow_of_quoted hquoted
  exact ⟨segments, words, rfl, hflow.alternate, Quotation.reads_letters hflow, hsource,
    hflow.spelled⟩

theorem quotation_read_back_blanks : ∃ next reach,
    run? Quotation.multiline.parser "x = \"\"\"a\"\"$$\x7b b\t\x7d\\\"\n\"\"\"\"".toList 4 =
      some ⟨.success (.multiline [.text "a\"\"$", .interpolation "b", .text "\\\"\n"]) next, reach⟩ ∧
    ReadsWhole Quotation.multiline.parser
      (.multiline [.text "a\"\"$", .interpolation "b", .text "\\\"\n"])
      "\"\"\"a\"\"$$\x7bb\x7d\\\"\n\"\"\"".toList := by
  have h : run? Quotation.multiline.parser
      "x = \"\"\"a\"\"$$\x7b b\t\x7d\\\"\n\"\"\"\"".toList 4 = some ⟨.success (.multiline
        [.text "a\"\"$", .interpolation "b", .text "\\\"\n"]) _, _⟩ :=
    run?_of_plain (Cursor.on_ofPos _ 4)
      (rfl : (grammar.plain 26 6).run Quotation.multiline.parser (Cursor.ofPos _ 4) = _)
  obtain ⟨segments, -, he, -, hback, -⟩ := quotation_read_back .multiline h
  obtain rfl := Expr.multiline.inj he
  exact ⟨_, _, h, hback⟩

end Grammar
end AgentLang
