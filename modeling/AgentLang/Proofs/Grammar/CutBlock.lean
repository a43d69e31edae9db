import AgentLang.Proofs.Grammar.CutBody

/-!
# Cutting blocks

Statements with bodies in a text and in a beginning of it. Where the beginning holds the opening of a
block, so does the whole text, and then no other statement can have been read and ended there.
-/

namespace AgentLang.Grammar

open List
open Verdict
open Parse (Pattern)
open Parse.Parser (lit word)

variable {α β : Type} {front back : List Char} {e i k m n last : Nat}

/-! ### Openings of blocks -/

section

variable {text : List Char} {p : Parser α} {q : Parser β}

theorem seq_opens {p : Parser (α → β)} {q : Parser α} (hp : harmless p = true)
    (h : read text (.seq p q) i ≠ .miss) : ∃ n, Spans text p i n ∧ read text q n ≠ .miss := by
  rw [read_seq] at h
  cases hfirst : read text p i with
  | ok f n =>
    refine ⟨n, ⟨f, hfirst⟩, fun hmiss => h ?_⟩
    rw [hfirst]
    dsimp only [Verdict.bind]
    rw [hmiss]
    rfl
  | miss =>
    rw [hfirst] at h
    exact absurd rfl h
  | dead => exact absurd hfirst (read_ne_dead hp)

theorem seq_ne_miss {p : Parser (α → β)} {q : Parser α} (h : read text (.seq p q) i ≠ .miss) :
    read text p i ≠ .miss := by
  intro hmiss
  rw [read_seq, hmiss] at h
  exact absurd rfl h

theorem keep_ne_miss (h : read text (p <* q) i ≠ .miss) : read text p i ≠ .miss := by
  intro hmiss
  rw [read_keep, hmiss] at h
  exact absurd rfl h

theorem skip_opens (hp : harmless p = true) (h : read text (p *> q) i ≠ .miss) :
    ∃ n, Spans text p i n ∧ read text q n ≠ .miss := by
  obtain ⟨n, hspans, hrest⟩ := seq_opens hp h
  exact ⟨n, spans_fmap.mp hspans, hrest⟩

theorem body_opens (h : read text body i ≠ .miss) : ∃ n, Spans text (lit "\x7b") i n := by
  by_contra hnone
  have hmiss : read text (lit "\x7b") i = .miss := by
    by_contra hne
    exact hnone (spans_of_ne_miss rfl hne)
  refine h ?_
  simp only [body, read_keep, read_skip, hmiss]
  rfl

theorem block_opens {γ : Type} {f : α → List Node → γ}
    (hp : harmless (f <$> p <* ws : Parser (List Node → γ)) = true)
    (h : read text (f <$> p <* ws <*> body) i ≠ .miss) :
    ∃ m k n, Spans text p i m ∧ Spans text ws m k ∧ Spans text (lit "\x7b") k n := by
  obtain ⟨k, hhead, hbody⟩ := seq_opens hp h
  obtain ⟨m, hp, hws⟩ := spans_keep.mp hhead
  obtain ⟨n, hbrace⟩ := body_opens hbody
  exact ⟨m, k, n, spans_fmap.mp hp, hws, hbrace⟩

end

theorem opening_whole (hi : i ≤ front.length) (hfirm : Firm front back p i)
    (hopen : harmless p = true) (hp : Spans front p i m) (hws : Spans front ws m k)
    (hbrace : Spans front (lit "\x7b") k n) :
    Spans (front ++ back) p i m ∧ Spans (front ++ back) ws m k ∧
      Spans (front ++ back) (lit "\x7b") k n := by
  have hm := hp.inside hi
  have hk := hws.inside hm
  exact ⟨hp.whole hfirm hopen, hws.whole_ws hm hbrace (by decide), hbrace.whole (firm_lit hk _) rfl⟩

/-- Condition behind a word. -/
def conditional (text : String) : Parser Expr :=
  word text *> ws *> parenthesized

variable (ht : Tight front back) (hi : i ≤ front.length)
include ht hi

theorem firm_conditional (htext : isWord text = true) : Firm front back (conditional text) i :=
  Cuts.skip_shut hi (Firm.skip_ws hi (firm_word ht hi htext)) (by decide)
    fun _ _ _ hn => firm_parenthesized ht hn

theorem inside_threadWord : Inside front back threadWord i := by
  refine Inside.choice hi ?_
  simp only [forall_mem_cons, not_mem_nil, false_imp_iff, implies_true, and_true]
  exact ⟨(Inside.word ht hi (by decide)).map _,
    (Inside.word ht hi (by decide)).map _,
    (Inside.word ht hi (by decide)).map _⟩

theorem inside_timeWord : Inside front back timeWord i := by
  refine Inside.choice hi ?_
  simp only [forall_mem_cons, not_mem_nil, false_imp_iff, implies_true, and_true]
  exact ⟨(Inside.word ht hi (by decide)).map _,
    (Inside.word ht hi (by decide)).map _⟩

/-! ### Other statements are excluded -/

omit ht hi

section

theorem word_begins (hu : u.toList = c :: rest) (hi : i ≤ text.length) (h : Spans text (word u) i n) :
    Ends text [c] i := by
  refine h.ends _ hi (by simp [hu]) fun d hd => ?_
  simpa [begins, hu] using hd

theorem block_of_condition (hu : u.toList = c :: rest) (hc : c.isAlpha = true)
    (hrest : rest.all Char.isAlpha = true) (ht : Tight front back) (hi : i ≤ front.length)
    (hcondition : Spans front (conditional u) i m) (hws : Spans front ws m k)
    (hbrace : Spans front (lit "\x7b") k n) : ∃ m, Block (front ++ back) [c] i m := by
  have hfirm : Firm front back (conditional u) i := by
    refine firm_conditional ht hi ?_
    rw [isWord, hu, all_cons, hc, hrest]
    rfl
  obtain ⟨hcondition, hws, hbrace⟩ := opening_whole hi hfirm rfl hcondition hws hbrace
  simp only [conditional, spans_skip] at hcondition
  obtain ⟨k', ⟨m', hword, hws'⟩, hparenthesized⟩ := hcondition
  have hbegins := word_begins hu (le_append hi) hword
  have hname : Spans (front ++ back) identifier i m' := by
    obtain ⟨v, hword⟩ := hword
    rw [Parse.Parser.word, hu] at hword
    refine read_identifier_of_word (le_append hi) hword hc (all_eq_true.mpr fun d hd => ?_)
    simp [Parse.Engine.isWordChar, Char.isAlphanum, all_eq_true.mp hrest d hd]
  exact ⟨m', Block.of_condition (le_append hi) hname hbegins hws' hparenthesized hws hbrace⟩

include ht hi

theorem thread_opens (h : read front messageThread i ≠ .miss) :
    ∃ m k n, Spans (front ++ back) threadWord i m ∧
      Spans (front ++ back) ws m k ∧ Spans (front ++ back) (lit "\x7b") k n := by
  obtain ⟨m, k, n, hword, hws, hbrace⟩ := block_opens (p := threadWord) rfl h
  exact ⟨m, k, n, opening_whole hi (inside_threadWord ht hi).firm rfl hword hws hbrace⟩

theorem time_opens (h : read front timeBlock i ≠ .miss) :
    ∃ m k n, Spans (front ++ back) timeWord i m ∧
      Spans (front ++ back) ws m k ∧ Spans (front ++ back) (lit "\x7b") k n := by
  obtain ⟨m, k, n, hword, hws, hbrace⟩ := block_opens (p := timeWord) rfl h
  exact ⟨m, k, n, opening_whole hi (inside_timeWord ht hi).firm rfl hword hws hbrace⟩

omit ht hi in
theorem thread_block (hi : i ≤ text.length) (hword : Spans text threadWord i m)
    (hws : Spans text ws m k) (hbrace : Spans text (lit "\x7b") k n) :
    Block text ['t', 's', 'p'] i m := by
  refine Block.of_sequel hi (threadWord_name hi hword) ?_ hws hbrace (by decide)
  exact hword.ends _ hi rfl fun c hc => by simpa [begins, threadWord] using hc

omit ht hi in
theorem time_block (hi : i ≤ text.length) (hword : Spans text timeWord i m)
    (hws : Spans text ws m k) (hbrace : Spans text (lit "\x7b") k n) :
    Block text ['p', 't'] i m := by
  refine Block.of_sequel hi (timeWord_name hi hword) ?_ hws hbrace (by decide)
  exact hword.ends _ hi rfl fun c hc => by simpa [begins, timeWord] using hc

omit ht hi in
theorem not_timeBlock (hi : i ≤ text.length) (hword : Spans text threadWord i m) :
    ¬Spans text timeBlock i n := by
  intro htime
  have hblock : Spans text ((fun prints body => Node.timed body prints) <$> timeWord <* ws <*> body) i n :=
    htime
  simp only [spans_ap, spans_keep, spans_fmap] at hblock
  obtain ⟨_, ⟨_, htime, -⟩, -⟩ := hblock
  exact thread_not_time hi hword htime

theorem thread_misses (hend : Spans (front ++ back) statementEnd n e)
    (hrest : Spans (front ++ back) (.choice [timeBlock, assignment, Node.expr <$> value]) i n) :
    read front messageThread i = .miss := by
  by_contra hne
  obtain ⟨m, k, _, hword, hws, hbrace⟩ := thread_opens ht hi hne
  have hblock := thread_block (le_append hi) hword hws hbrace
  refine hblock.not_rest (le_append hi) (by decide) hend [timeBlock] ?_ hrest
  intro p hp
  rw [List.mem_singleton.mp hp]
  exact not_timeBlock (le_append hi) hword

theorem time_misses (hend : Spans (front ++ back) statementEnd n e)
    (hrest : Spans (front ++ back) (.choice [assignment, Node.expr <$> value]) i n) :
    read front timeBlock i = .miss := by
  by_contra hne
  obtain ⟨m, k, _, hword, hws, hbrace⟩ := time_opens ht hi hne
  have hblock := time_block (le_append hi) hword hws hbrace
  exact hblock.not_rest (le_append hi) (by decide) hend [] nofun hrest

theorem ifElse_misses (hend : Spans (front ++ back) statementEnd n e)
    (hrest : Spans (front ++ back) (.choice [whileLoop, selection, messageThread, timeBlock,
      assignment, Node.expr <$> value]) i n) :
    read front ifElse i = .miss := by
  by_contra hne
  rw [read_ifElse] at hne
  have hopening : read front (Node.ifElse <$> conditional "if" <* ws <*> body) i ≠ .miss :=
    seq_ne_miss hne
  obtain ⟨m, k, _, hcondition, hws, hbrace⟩ := block_opens rfl hopening
  obtain ⟨_, hblock⟩ := block_of_condition rfl (by decide) (by decide) ht hi hcondition hws hbrace
  exact hblock.not_rest (le_append hi) (by decide) hend
    [whileLoop, selection, messageThread, timeBlock]
    (hblock.not_shut (le_append hi) (by decide)) hrest

theorem while_misses (hend : Spans (front ++ back) statementEnd n e)
    (hrest : Spans (front ++ back) (.choice [selection, messageThread, timeBlock, assignment,
      Node.expr <$> value]) i n) :
    read front whileLoop i = .miss := by
  by_contra hne
  obtain ⟨m, k, _, hcondition, hws, hbrace⟩ := block_opens (p := conditional "while") rfl hne
  obtain ⟨_, hblock⟩ := block_of_condition rfl (by decide) (by decide) ht hi hcondition hws hbrace
  exact hblock.not_rest (le_append hi) (by decide) hend [selection, messageThread, timeBlock]
    (hblock.not_shut (le_append hi) (by decide)) hrest

theorem selection_misses (hend : Spans (front ++ back) statementEnd n e)
    (hrest : Spans (front ++ back) (.choice [messageThread, timeBlock, assignment, Node.expr <$>
      value]) i n) :
    read front selection i = .miss := by
  by_contra hne
  have hopening : read front (Node.select <$> conditional "match" <* ws <* lit "\x7b" :
      Parser (List Arm → Node)) i ≠ .miss := seq_ne_miss (keep_ne_miss (keep_ne_miss hne))
  obtain ⟨_, hspans⟩ := spans_of_ne_miss rfl hopening
  simp only [spans_keep, spans_fmap] at hspans
  obtain ⟨k, ⟨m, hcondition, hws⟩, hbrace⟩ := hspans
  obtain ⟨_, hblock⟩ := block_of_condition rfl (by decide) (by decide) ht hi hcondition hws hbrace
  exact hblock.not_rest (le_append hi) (by decide) hend [messageThread, timeBlock]
    (hblock.not_shut (le_append hi) (by decide)) hrest

omit ht hi in
theorem brace_of_block (hi : i ≤ text.length) (hname : Spans text identifier i m)
    (hws : Spans text ws m k) (h : Spans text messageThread i n ∨ Spans text timeBlock i n) :
    Ends text ['\x7b'] k := by
  have hk := hws.inside (hname.inside hi)
  obtain ⟨m', k', hname', hws', hbody⟩ : ∃ m' k', Spans text identifier i m' ∧
      Spans text ws m' k' ∧ Spans text body k' n := by
    rcases h with h | h
    · have h : Spans text (Node.thread <$> threadWord <* ws <*> body) i n := h
      simp only [spans_ap, spans_keep, spans_fmap] at h
      obtain ⟨k', ⟨m', hword, hws'⟩, hbody⟩ := h
      exact ⟨m', k', threadWord_name hi hword, hws', hbody⟩
    · have h : Spans text ((fun prints body => Node.timed body prints) <$> timeWord <* ws <*> body) i n := h
      simp only [spans_ap, spans_keep, spans_fmap] at h
      obtain ⟨k', ⟨m', hword, hws'⟩, hbody⟩ := h
      exact ⟨m', k', timeWord_name hi hword, hws', hbody⟩
  obtain rfl := hname.unique hname'
  obtain rfl := hws.unique hws'
  obtain ⟨_, hbrace⟩ := body_opens hbody.ne_miss
  exact ends_of_starts (spans_lit hk hbrace).1

def visibilityWord : Parser Visibility :=
  .choice [(fun _ => .shown) <$> word "public", (fun _ => .hidden) <$> word "private"]

theorem inside_visibilityWord : Inside front back visibilityWord i := by
  refine Inside.choice hi ?_
  simp only [forall_mem_cons, not_mem_nil, false_imp_iff, implies_true, and_true]
  exact ⟨(Inside.word ht hi (by decide)).map _,
    (Inside.word ht hi (by decide)).map _⟩

omit ht hi in
theorem visibilityWord_name (hi : i ≤ text.length) (h : Spans text visibilityWord i n) :
    Spans text identifier i n := by
  simp only [visibilityWord, spans_choice_more, spans_choice_one, spans_fmap] at h
  rcases h with ⟨v, h⟩ | ⟨-, v, h⟩ <;> exact read_identifier_of_word hi h (by decide) (by decide)

theorem graphNode_opens (h : read front graphNodeDefinition i ≠ .miss) :
    ∃ m k n, Spans (front ++ back) identifier i m ∧
      Ends (front ++ back) ['p', 'n'] i ∧ Spans (front ++ back) ws m k ∧
      Spans (front ++ back) identifier k n := by
  have hopening : read front ((fun visibility name parameters returns body =>
      Node.graphNode name parameters body returns visibility)
      <$> visibility <* word "node" <* ws1 <*> identifier) i ≠ .miss :=
    keep_ne_miss (seq_ne_miss (seq_ne_miss (keep_ne_miss (seq_ne_miss h))))
  obtain ⟨d, hspans⟩ := spans_of_ne_miss rfl hopening
  simp only [spans_keep, spans_ap, spans_fmap] at hspans
  obtain ⟨c, ⟨b, ⟨a, hvisibility, hnode⟩, hws1⟩, hname⟩ := hspans
  have ha := hvisibility.inside hi
  have hb := hnode.inside ha
  have hc := hws1.inside hb
  have hnode' := hnode.whole (firm_word ht ha (by decide)) rfl
  obtain ⟨v, hword⟩ := hnode'
  have hnodeName : Spans (front ++ back) identifier a b :=
    read_identifier_of_word (le_append ha) hword (by decide) (by decide)
  rcases spans_optional.mp hvisibility with hspans | ⟨-, rfl⟩
  · obtain ⟨m, hpublic, hblanks⟩ := spans_keep.mp hspans
    have hm := hpublic.inside hi
    have hpublic' : Spans (front ++ back) visibilityWord i m :=
      hpublic.whole (inside_visibilityWord ht hi).firm rfl
    refine ⟨m, a, b, visibilityWord_name (le_append hi) hpublic', ?_, ?_, hnodeName⟩
    · refine (hpublic'.ends ['p'] (le_append hi) rfl fun c hc => ?_).mono (by decide)
      simpa [begins, visibilityWord] using hc
    · exact (ws_of_ws1 hm hblanks).whole_ws hm hnode (by decide)
  · refine ⟨b, c, d, hnodeName, ?_, ?_, hname.whole (firm_identifier ht hc) rfl⟩
    · exact (word_begins rfl (le_append hi) ⟨v, hword⟩).mono (by decide)
    · exact (ws_of_ws1 hb hws1).whole_ws hb hname (by decide)

theorem graphNode_misses (hend : Spans (front ++ back) statementEnd n e)
    (hrest : Spans (front ++ back) (.choice [typeHint, specialVar, returnStatement, goto, usesTool,
      ifElse, whileLoop, selection, messageThread, timeBlock, assignment, Node.expr <$> value]) i
      n) :
    read front graphNodeDefinition i = .miss := by
  by_contra hne
  obtain ⟨m, k, _, hname, hbegins, hws, hnext⟩ := graphNode_opens ht hi hne
  have hi' : i ≤ (front ++ back).length := le_append hi
  have hk := hws.inside (hname.inside hi')
  have hblock : Block (front ++ back) ['p', 'n'] i m :=
    Block.of_sequel hi' hname hbegins hws hnext (by decide)
  have hbrace : ¬(Spans (front ++ back) messageThread i n ∨ Spans (front ++ back) timeBlock i n) :=
    fun h => (brace_of_block hi' hname hws h).clash hk hnext (by decide)
  have hnone : ∀ {p : Parser Node}, shut ['p', 'n'] p = true → ¬Spans (front ++ back) p i n :=
    fun hshut => hbegins.not_spans hi' hshut
  refine hblock.not_rest hi' (by decide) hend [typeHint, specialVar, returnStatement, goto,
    usesTool, ifElse, whileLoop, selection, messageThread, timeBlock] ?_ hrest
  simp only [forall_mem_cons, not_mem_nil, false_imp_iff, implies_true, and_true]
  exact ⟨hblock.not_typeHint hi', hnone (by decide), hnone (by decide), hnone (by decide),
    hnone (by decide), hnone (by decide), hnone (by decide), hnone (by decide),
    fun h => hbrace (.inl h), fun h => hbrace (.inr h)⟩

end

end AgentLang.Grammar
