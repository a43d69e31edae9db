import AgentLang.Proofs.Grammar.InsertSelection

/-!
# Inserting semicolons: all statements

Definitions, and with them all statements: a statement that ends where semicolons are inserted is
the same statement before them.
-/

namespace AgentLang.Grammar

open List
open Verdict
open Parse.Parser (lit word)

variable {front back rest text : List Char} {i k m n e : Nat}

/-! ### Definitions -/

variable (h : Inserted front back rest) (hi : i ≤ front.length)
include h hi

theorem Inserted.stable_functionBody (hlater : LaterPersist front back rest i) :
    Stable front back rest functionBody i := by
  have hdoc : ∀ j, j ≤ front.length → Stable front back rest (space *> docString) j := fun j hj =>
    Carries.skip_spaced hj (persists_space hj)
      (fun n _ _ hn => h.keeps (fun _ => firm_docString hn) rfl) (by decide)
  refine h.stable_items (K := fun j => read (front ++ back) (space *> docString) j = .miss ∧
      read (front ++ ';' :: rest) (space *> docString) j ≠ .miss) hi
    (Carries.map (Keeps.skip hi (inert_lit hi (by decide)).keeps fun n _ _ hn => ?_) _)
    (fun j _ hlt hj => hlater j (hlt rfl) hj) fun j hj hlands => ?_
  · exact Carries.optional (hdoc n hn).carries fun hmiss hne => ⟨hmiss, hne⟩
  · rintro ⟨hmiss, hne⟩
    obtain ⟨e, hspans⟩ := spans_of_ne_miss rfl hne
    obtain ⟨x, ⟨v, hspace⟩, hspans⟩ := spans_skip.mp hspans
    have hlt := (hlands x ⟨v, hspace⟩).1
    have hx := Nat.le_of_lt hlt
    have hquote : Leads front ['"'] x := by
      refine (hspans.ends ['"'] (le_append hx) rfl fun c hc => ?_).leads hx (by decide)
      simpa [begins, docString] using hc
    have hspace' : Spans (front ++ back) space j x := by
      have hbegin : Spans front space j x := ⟨v, (cuts_space hj).eq_ok hspace hx⟩
      refine (hbegin.of_whole (cuts_space hj) rfl).resolve_right fun hsettled => ?_
      have hends : Ends (front ++ back) _ x := hsettled.1.whole hlt
      exact hquote.not_ends (by decide) hends
    obtain ⟨e', hspans'⟩ : ∃ e, Spans (front ++ back) docString x e :=
      spans_of_ne_miss rfl fun hmiss => hspans.ne_miss (h.noDocString x hx hmiss)
    exact (spans_skip.mpr ⟨x, hspace', hspans'⟩).ne_miss hmiss

theorem Inserted.inert_functionDefinition (hlater : LaterPersist front back rest i) :
    Inert front back rest functionDefinition i := by
  refine Mirrors.commit hi (h.inert hi (fun ht => cuts_functionHead ht hi) rfl rfl)
    fun n hin _ hn => ?_
  refine Carries.seq (L := Leads front [':']) hn ?_
    (fun m hnm _ hm => h.stable_functionBody hm (hlater.mono (Nat.le_trans hin hnm)))
    fun m e _ hleads hbody _ => hleads.clash hbody (by decide)
  refine Carries.keep (L := Typed front) hn ?_
    (fun m _ _ hm => (inert_ws hm).keeps.carries) fun m e hm htyped hws _ => htyped.leads hm hws
  refine Keeps.seq hn ?_ fun m _ _ hm => h.persists_hint hm
  refine Keeps.seq hn ?_ fun m _ _ hm => h.stable_parameterList hm
  exact Keeps.keep hn ((inert_identifier h.tight hn).map _).keeps
    fun m _ _ hm => (inert_ws hm).keeps

theorem Inserted.stable_graphNodeDefinition (hlater : LaterPersist front back rest i) :
    Stable front back rest graphNodeDefinition i := by
  have hhead : Inert front back rest visibilityHead i :=
    h.inert hi (fun ht => cuts_visibilityHead ht hi) rfl rfl
  have hvisibility : Stable front back rest visibility i :=
    Mirrors.optional hhead
  refine Carries.seq (L := Leads front [':']) hi ?_
    (fun m him _ hm => h.stable_body hm (hlater.mono him))
    fun m e _ hleads hbody _ => hleads.clash hbody (by decide)
  refine Carries.keep (L := Typed front) hi ?_
    (fun m _ _ hm => (inert_ws hm).keeps.carries) fun m e hm htyped hws _ => htyped.leads hm hws
  refine Keeps.seq hi ?_ fun m _ _ hm => h.persists_hint hm
  refine Keeps.seq hi ?_ fun m _ _ hm => h.stable_parameterList hm
  refine Keeps.keep hi ?_ fun m _ _ hm => (inert_ws hm).keeps
  refine Keeps.seq hi ?_ fun m _ _ hm => (inert_identifier h.tight hm).keeps
  refine Keeps.keep hi ?_ fun m _ _ hm => (inert_ws1 hm).keeps
  exact Keeps.keep hi (hvisibility.map _)
    fun m _ _ hm => (inert_word h.tight hm (by decide)).keeps

/-! ### Other statements are excluded -/

omit h hi

theorem misses_here
    (hp : ∀ {back : List Char}, Tight text back → i ≤ text.length →
      Spans (text ++ back) statementEnd n e → Spans (text ++ back) (.choice ps) i n →
      read text p i = .miss)
    (hi : i ≤ text.length) (hend : Spans text statementEnd n e)
    (hrest : Spans text (.choice ps) i n) : read text p i = .miss :=
  hp tight_nil hi (by rwa [append_nil]) (by rwa [append_nil])

theorem conditional_paren (hu : u.toList = c :: others) (hc : c.isAlpha = true)
    (hothers : others.all Char.isAlpha = true) (hi : i ≤ text.length)
    (hname : Spans text identifier i m) (hws : Spans text ws m k)
    (h : Spans text (conditional u) i n) : Ends text ['('] k := by
  simp only [conditional, spans_skip] at h
  obtain ⟨k', ⟨m', ⟨v, hword⟩, hws'⟩, hparenthesized⟩ := h
  have hname' : Spans text identifier i m' := by
    rw [Parse.Parser.word, hu] at hword
    refine read_identifier_of_word hi hword hc (all_eq_true.mpr fun d hd => ?_)
    simp [Parse.Engine.isWordChar, Char.isAlphanum, all_eq_true.mp hothers d hd]
  obtain rfl := hname.unique hname'
  obtain rfl := hws.unique hws'
  have hk := hws.inside (hname.inside hi)
  obtain ⟨_, _, _, _, hopen, -⟩ := parenthesized_spans hparenthesized
  exact ends_of_starts (spans_lit hk hopen).1

/-- Where two colons follow a name, no statement but the declaration of a type can end. -/
theorem colons_exclude (hi : i ≤ text.length) (hname : Spans text identifier i m)
    (hws : Spans text ws m k) (hcolons : Spans text (lit "::") k j)
    (hend : Spans text statementEnd n e) :
    ¬Spans text (.choice [specialVar, returnStatement, goto, usesTool, ifElse, whileLoop, selection,
      messageThread, timeBlock, assignment, Node.expr <$> value]) i n := by
  have hm := hname.inside hi
  have hk := hws.inside hm
  have hcolon : Ends text [':'] k := ends_of_starts (spans_lit hk hcolons).1
  have hopen : ∀ {heads : List Char}, Ends text heads k → shut heads (lit "::" : Parser String) = true →
      False := fun hends hshut => hends.not_spans hk hshut hcolons
  have hends : n ≠ m := by
    rintro rfl
    exact hopen (statementEnd_ends hm hws hend) (by decide)
  have hword : ∀ {u : String} {c : Char} {others : List Char} {v : String} {a : Nat},
      u.toList = c :: others → c.isAlpha = true → others.all Parse.Engine.isWordChar = true →
      read text (word u) i = .ok v a → a = m := by
    intro u c others v a hu hc hothers hread
    rw [Parse.Parser.word, hu] at hread
    have hname' : Spans text identifier i a := read_identifier_of_word hi hread hc hothers
    exact hname'.unique hname
  have hparen : ¬Ends text ['('] m := by
    intro hparen
    obtain rfl := hparen.spans_eq hm hws (by decide)
    exact hopen hparen (by decide)
  have hcondition : ∀ {a b}, ¬Spans text (conditional "if") i a ∧
      ¬Spans text (conditional "while") i b ∧ ¬Spans text (conditional "match") i b := by
    intro a b
    refine ⟨fun h => ?_, fun h => ?_, fun h => ?_⟩ <;>
      exact hopen (conditional_paren rfl (by decide) (by decide) hi hname hws h) (by decide)
  intro h
  obtain ⟨p, hp, h⟩ := choice_spans h
  simp only [mem_cons, not_mem_nil, or_false] at hp
  rcases hp with rfl | rfl | rfl | rfl | rfl | rfl | rfl | rfl | rfl | rfl | rfl
  · refine (h.ends ['@'] hi rfl fun c hc => ?_).clash hi hname (by decide)
    simpa [begins, specialVar] using hc
  · simp only [returnStatement, spans_fmap, spans_skip, spans_optional] at h
    obtain ⟨a, ⟨v, hreturn⟩, ⟨k', hblanks, hvalue⟩ | ⟨-, rfl⟩⟩ := h
    · obtain rfl := hword rfl (by decide) (by decide) hreturn
      obtain rfl := hws.unique (ws_of_ws1 hm hblanks)
      exact hcolon.clash hk hvalue (by decide)
    · exact hends (hword rfl (by decide) (by decide) hreturn)
  · obtain ⟨a, k', b, _, _, _, _, _, ⟨v, hgoto⟩, hblanks, htarget, -⟩ := goto_spans h
    obtain rfl := hword rfl (by decide) (by decide) hgoto
    obtain rfl := hws.unique (ws_of_ws1 hm hblanks)
    exact hcolon.clash hk htarget (by decide)
  · simp only [usesTool, spans_ap, spans_fmap, spans_skip] at h
    obtain ⟨_, ⟨k', ⟨a, hmark, hblanks⟩, htarget⟩, -⟩ := h
    have ha : a = k := by
      simp only [spans_choice_more, spans_choice_one, spans_keep] at hmark
      rcases hmark with ⟨b, ⟨v, huses⟩, hblanks⟩ | ⟨-, ⟨b, ⟨v, huse⟩, hblanks⟩ | ⟨-, hplus⟩⟩
      · obtain rfl := hword rfl (by decide) (by decide) huses
        exact (ws_of_ws1 hm hblanks).unique hws
      · obtain rfl := hword rfl (by decide) (by decide) huse
        exact (ws_of_ws1 hm hblanks).unique hws
      · have hends : Ends text ['+'] i := ends_of_starts (spans_lit hi hplus).1
        exact absurd hname (hends.not_spans hi (by decide))
    subst ha
    obtain rfl := hcolon.spans_eq hk hblanks (by decide)
    exact hcolon.clash hk htarget (by decide)
  · have hbody := (spans_congr read_ifElse).mp h
    simp only [ifElseBody, spans_ap, spans_keep, spans_fmap] at hbody
    obtain ⟨_, ⟨_, ⟨_, hconditional, -⟩, -⟩, -⟩ := hbody
    exact (hcondition (b := 0)).1 hconditional
  · have hbody : Spans text (Node.loop <$> conditional "while" <* ws <*> body) i n := h
    simp only [spans_ap, spans_keep, spans_fmap] at hbody
    obtain ⟨_, ⟨_, hconditional, -⟩, -⟩ := hbody
    exact (hcondition (a := 0)).2.1 hconditional
  · have hbody : Spans text (Node.select <$> conditional "match" <* ws <* lit "\x7b"
        <*> .many armItem <* space <* closing "\x7d") i n := h
    simp only [spans_ap, spans_keep, spans_fmap] at hbody
    obtain ⟨_, ⟨_, ⟨_, ⟨_, ⟨_, hconditional, -⟩, -⟩, -⟩, -⟩, -⟩ := hbody
    exact (hcondition (a := 0)).2.2 hconditional
  · exact hopen (brace_of_block hi hname hws (.inl h)) (by decide)
  · exact hopen (brace_of_block hi hname hws (.inr h)) (by decide)
  · simp only [assignment, hint, spans_ap, spans_keep, spans_fmap, spans_optional, spans_skip] at h
    obtain ⟨_, ⟨_, ⟨_, ⟨k', ⟨a, ⟨m', hname', hhint⟩, hws'⟩, hequals⟩, -⟩, -⟩, -⟩ := h
    obtain rfl := hname.unique hname'
    rcases hhint with ⟨x, ⟨y, ⟨k₁, hws₁, hmark⟩, hblanks⟩, htype⟩ | ⟨-, rfl⟩
    · obtain rfl := hws.unique hws₁
      have hy := hmark.inside hk
      have hsecond : Ends text [':'] y := by
        obtain ⟨tail, htail⟩ := isPrefixOf_iff_prefix.mp (spans_lit hk hcolons).1
        obtain ⟨-, rfl⟩ := spans_lit hk hmark
        intro c hc
        rw [← drop_drop, ← htail] at hc
        cases hc
        exact mem_cons_self
      obtain rfl := hsecond.spans_eq hy hblanks (by decide)
      exact hsecond.clash hy htype (by decide)
    · obtain rfl := hws.unique hws'
      exact hcolon.clash hk hequals (by decide)
  · have hprompt := prompt_misses_of_name hi hname hparen
    rcases value_cases hi hname hprompt (spans_fmap.mp h) with
      (hsame | hcall) | ⟨b, k', rfl | hcall, hws', -, hgoes⟩
    · exact hends hsame
    · exact hparen (call_rest hi hcall hname)
    · obtain rfl := hws.unique hws'
      rcases hgoes with hsteps | ⟨_, hoperator⟩
      · exact hopen hsteps (by decide)
      · exact hcolon.clash hk hoperator (by decide)
    · exact hparen (call_rest hi hcall hname)

theorem typeHint_misses (hi : i ≤ text.length) (hend : Spans text statementEnd n e)
    (hrest : Spans text (.choice [specialVar, returnStatement, goto, usesTool, ifElse, whileLoop,
      selection, messageThread, timeBlock, assignment, Node.expr <$> value]) i n) :
    read text typeHint i = .miss := by
  by_contra hne
  obtain ⟨_, hhint⟩ := spans_of_ne_miss rfl hne
  simp only [typeHint, spans_ap, spans_keep, spans_fmap] at hhint
  obtain ⟨_, ⟨_, ⟨k, ⟨m, hname, hws⟩, hcolons⟩, -⟩, -⟩ := hhint
  exact colons_exclude hi hname hws hcolons hend hrest

theorem specialVar_misses (hi : i ≤ text.length)
    (hrest : Spans text (.choice [returnStatement, goto, usesTool, ifElse, whileLoop, selection,
      messageThread, timeBlock, assignment, Node.expr <$> value]) i n) :
    read text specialVar i = .miss := by
  by_contra hne
  obtain ⟨_, hspecial⟩ := spans_of_ne_miss rfl hne
  refine (hspecial.ends ['@'] hi rfl fun c hc => ?_).clash hi hrest (by decide)
  simpa [begins, specialVar] using hc

theorem goto_misses (hi : i ≤ text.length) (hend : Spans text statementEnd n e)
    (hrest : Spans text (.choice [usesTool, ifElse, whileLoop, selection, messageThread, timeBlock,
      assignment, Node.expr <$> value]) i n) : read text goto i = .miss := by
  by_contra hne
  obtain ⟨_, hgoto⟩ := spans_of_ne_miss rfl hne
  obtain ⟨_, _, _, hblock, -⟩ := goto_block hi hgoto
  exact hblock.not_rest hi (by decide) hend
    [usesTool, ifElse, whileLoop, selection, messageThread, timeBlock]
    (hblock.not_shut hi (by decide)) hrest

/-! ### Statements -/

include h hi

theorem Inserted.statement_persists (hlater : LaterPersist front back rest i)
    (hconditional : ConditionalCarries front back (front ++ ';' :: rest) i) :
    StatementPersists front back rest i := by
  intro v n hok hn hfinished
  have hi' : i ≤ (front ++ ';' :: rest).length := le_append hi
  obtain ⟨e, hend⟩ := hfinished.ends
  have hhalts : Halts front back rest n := Halts.of_end hn hend
  rw [read_statement] at hok ⊢
  refine (h.inert_importStatement hi).choice_carried hn hok fun hok => ?_
  refine (h.inert_functionDefinition hi hlater).choice_carried hn hok fun hok => ?_
  refine choice_carried hok (fun hok => (h.stable_graphNodeDefinition hi hlater).read hok hn)
    (fun hok => ?_) fun _ _ hrest => misses_here graphNode_misses hi' hend hrest
  refine choice_carried hok (fun hok => (h.stable_typeHint hi).read hok hn)
    (fun hok => ?_) fun _ _ hrest => typeHint_misses hi' hend hrest
  refine choice_carried hok
    (fun hok => (h.persists_specialVar hi v n hok hn).resolve_right hhalts.notLonger)
    (fun hok => ?_) fun _ _ hrest => specialVar_misses hi' hrest
  refine choice_carried hok (fun hok => (h.persists_return hi v n hok hn).resolve_right
    (not_or.mpr ⟨hhalts.notLonger, hhalts.notAnswers⟩))
    (fun hok => ?_) fun hmiss _ _ => h.return_misses hi hmiss
  refine choice_carried hok (fun hok => (h.stable_goto hi).read hok hn)
    (fun hok => ?_) fun _ _ hrest => goto_misses hi' hend hrest
  refine choice_carried hok
    (fun hok => (h.persists_usesTool hi v n hok hn).resolve_right fun hne => hne hfinished.noComma)
    (fun hok => ?_) fun hmiss _ _ => h.uses_misses hi hmiss
  refine choice_carried hok (fun hok => hconditional v n hok hn hfinished.noElse)
    (fun hok => ?_) fun _ _ hrest => misses_here ifElse_misses hi' hend hrest
  refine choice_carried hok (fun hok => (h.stable_whileLoop hi hlater).read hok hn)
    (fun hok => ?_) fun _ _ hrest => misses_here while_misses hi' hend hrest
  refine choice_carried hok (fun hok => (h.stable_selection hi hlater).read hok hn)
    (fun hok => ?_) fun _ _ hrest => misses_here selection_misses hi' hend hrest
  refine choice_carried hok (fun hok => (h.stable_messageThread hi hlater).read hok hn)
    (fun hok => ?_) fun _ _ hrest => misses_here thread_misses hi' hend hrest
  refine choice_carried hok (fun hok => (h.stable_timeBlock hi hlater).read hok hn)
    (fun hok => ?_) fun _ _ hrest => misses_here time_misses hi' hend hrest
  refine choice_carried hok (fun hok => h.assignment_persists hi hlater hok hn hhalts)
    (fun hok => ?_) fun _ _ hrest => ?_
  · exact choice_last hok fun hok => h.value_persists hi hok hn hhalts
  · rcases spans_choice_cons.mp hrest with hvalue | ⟨-, hnil⟩
    · exact hhalts.assignment_misses hi (spans_fmap.mp hvalue)
    · exact absurd hnil spans_choice_nil

/-- Statements are the same before semicolons, by induction on what is left before them. -/
theorem Inserted.statements_persist :
    StatementPersists front back rest i ∧
      ConditionalCarries front back (front ++ ';' :: rest) i := by
  induction hleft : front.length - i using Nat.strongRecOn generalizing i with
  | ind left ih =>
    have hboth : ∀ j, i < j → j ≤ front.length →
        StatementPersists front back rest j ∧
          ConditionalCarries front back (front ++ ';' :: rest) j :=
      fun j hj hle => ih _ (by omega) hle rfl
    have hlater : LaterPersist front back rest i := fun j hj hle => (hboth j hj hle).1
    have hconditional := h.conditional_persists hi hlater fun j hj hle => (hboth j hj hle).2
    exact ⟨h.statement_persists hi hlater hconditional, hconditional⟩

end AgentLang.Grammar
