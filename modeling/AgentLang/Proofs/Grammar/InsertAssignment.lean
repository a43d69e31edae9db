import AgentLang.Proofs.Grammar.InsertBlock

/-!
# Inserting semicolons: assignments

A value before the semicolons is the same with them where nothing that could belong to it follows. An
assignment then is the same too, and what is no assignment does not become one.
-/

namespace AgentLang.Grammar

open Verdict
open Parse.Parser (lit word)

variable {α : Type} {front back rest text : List Char} {i k m n : Nat}

/-! ### Where values end -/

theorem Operates.not_end (h : Operates text n m) (hn : n ≤ text.length) :
    ¬Spans text statementEnd n e := by
  intro hend
  obtain ⟨k, k₁, k₂, hws, hoperator, hws', hoperand⟩ := h
  have hk := hws.inside hn
  have hcomment : ∀ c, c ∈ ['/', '*'] → ¬['/', c].isPrefixOf (text.drop k) = true :=
    fun c => no_comment_at_operator hk hoperator hws' hoperand
  rcases statementEnd_cases hend with hsemicolons | ⟨-, hws₁, m, hstop⟩
  · exact (semicolons_ends hn hws hsemicolons).clash hk hoperator (by decide)
  · obtain rfl := hws.unique hws₁
    simp only [stop, spans_choice_more, spans_choice_one, spans_fmap] at hstop
    rcases hstop with hline | ⟨-, hbrace | ⟨-, hslashes | ⟨-, hstar | ⟨-, v, heof⟩⟩⟩⟩
    · refine (hline.ends ['\r', '\n'] hk rfl fun c hc => ?_).clash hk hoperator (by decide)
      simpa [begins, Shape.lineEnd] using hc
    · have hends : Ends text ['\x7d'] k := ends_of_starts (spans_lit hk hbrace).1
      exact hends.clash hk hoperator (by decide)
    · exact hcomment '/' (by decide) (spans_lit hk hslashes).1
    · exact hcomment '*' (by decide) (spans_lit hk hstar).1
    · have hlt := (hoperator.bounds hk).2.2 rfl
      rw [read_eof, if_neg (by have := (hoperator.inside hk); omega)] at heof
      cases heof

/-- Whether two kinds of characters have none in common. -/
def apart (heads heads' : List Char) : Bool :=
  heads.all fun c => !heads'.contains c

theorem not_mem_of_apart (h : apart heads heads' = true) (hc : c ∈ heads) : c ∉ heads' := by
  simpa using List.all_eq_true.mp h c hc

theorem Leads.not_ends (h : Leads front heads n) (hheads : apart heads heads' = true) :
    ¬Ends (front ++ back) heads' n := by
  intro hends
  obtain ⟨c, hc, hhead⟩ := h
  exact not_mem_of_apart hheads hc (hends c ((head_whole (lt_of_head hhead)).mpr hhead))

/-- The value that ends at the place goes on in neither text, and no assignment or block begins
with it. -/
structure Halts (front back rest : List Char) (n : Nat) : Prop where
  notLonger : ¬Longer front back rest n
  notAnswers : ¬Answers front back rest n
  plain : ∀ k c, Spans (front ++ ';' :: rest) ws n k →
    ((front ++ ';' :: rest).drop k).head? = some c → c ∉ ['\x7b', ':', '=']

namespace Halts

theorem of_end (hn : n ≤ front.length) (hend : Spans (front ++ ';' :: rest) statementEnd n e) :
    Halts front back rest n where
  notLonger := by
    rintro (hleads | ⟨⟨m, hoperates⟩, -⟩)
    · have hws := ws_spans (le_append hn : n ≤ (front ++ ';' :: rest).length)
      rw [hleads.ends.spans_eq (le_append hn) hws (by decide)] at hws
      exact hleads.not_ends (by decide) (statementEnd_ends (le_append hn) hws hend)
    · exact hoperates.not_end (le_append hn) hend
  notAnswers := by
    rintro ⟨-, hne⟩
    obtain ⟨m, hspans⟩ := spans_of_ne_miss rfl hne
    obtain ⟨k, hblanks, hvalue⟩ := spans_skip.mp hspans
    have hws := ws_of_ws1 (le_append hn) hblanks
    exact (statementEnd_ends (le_append hn) hws hend).clash (hws.inside (le_append hn)) hvalue (by decide)
  plain k c hws hc := by
    have hapart : apart endings ['\x7b', ':', '='] = true := by decide
    exact not_mem_of_apart hapart (statementEnd_ends (le_append hn) hws hend c hc)

theorem unbraced (h : Halts front back rest n) (hn : n ≤ front.length) :
    Unbraced (front ++ ';' :: rest) n := by
  by_contra hne
  obtain ⟨_, hspans⟩ := spans_of_ne_miss rfl hne
  obtain ⟨k, hws, hbrace⟩ := spans_skip.mp hspans
  obtain ⟨-, tail, htail⟩ := drop_of_lit rfl (hws.inside (le_append hn)) hbrace
  exact h.plain k '\x7b' hws (by rw [htail]; rfl) (by decide)

end Halts

variable (h : Inserted front back rest) (hi : i ≤ front.length)
include h hi

theorem Inserted.value_persists (hok : read (front ++ back) (Node.expr <$> value) i = .ok v n)
    (hn : n ≤ front.length) (hhalts : Halts front back rest n) :
    read (front ++ ';' :: rest) (Node.expr <$> value) i = .ok v n :=
  ((h.persists_value hi).map Node.expr v n hok hn).resolve_right hhalts.notLonger

/-! ### What is assigned -/

theorem Inserted.assigned_persists (hlater : LaterPersist front back rest i)
    (hok : read (front ++ back) assigned i = .ok v n) (hn : n ≤ front.length)
    (hhalts : Halts front back rest n) : read (front ++ ';' :: rest) assigned i = .ok v n :=
  assigned_carried (le_append hi) (h.stable_messageThread hi hlater) (h.stable_timeBlock hi hlater)
    hok hn (fun hok => h.value_persists hi hok hn hhalts) (hhalts.unbraced hn)

/-! ### Assignments -/

theorem Inserted.stable_assignmentHead : Stable front back rest assignmentHead i := by
  have hhint : Persists front back rest (Typed front) (Node.assign <$> identifier <*> hint) i :=
    Keeps.seq hi ((inert_identifier h.tight hi).map _).keeps fun _ _ _ hn => h.persists_hint hn
  have hws : Persists front back rest (Leads front [':'])
      (Node.assign <$> identifier <*> hint <* ws) i :=
    Carries.keep hi hhint (fun n _ _ hn => (inert_ws hn).keeps.carries)
      fun m n hm htyped hws _ => htyped.leads hm hws
  have hequals : Stable front back rest (Node.assign <$> identifier <*> hint <* ws <* lit "=") i :=
    Carries.keep hi hws (fun n _ _ hn => (inert_lit hn (by decide)).keeps)
      fun m n _ hleads hequals _ => hleads.clash hequals (by decide)
  have hguard : Stable front back rest (Node.assign <$> identifier <*> hint <* ws <* lit "="
      <* .notFollowedBy (lit "=") "'='") i :=
    Keeps.keep hi hequals fun n _ _ hn => (inert_lit hn (by decide)).guard rfl
  exact Keeps.keep hi hguard fun n _ _ hn => (inert_ws hn).keeps

theorem Inserted.assignment_persists (hlater : LaterPersist front back rest i)
    (hok : read (front ++ back) assignment i = .ok v n) (hn : n ≤ front.length)
    (hhalts : Halts front back rest n) : read (front ++ ';' :: rest) assignment i = .ok v n :=
  seq_carried (p := assignmentHead) hi (h.stable_assignmentHead hi) hok hn
    fun _ _ him _ hm hassigned => h.assigned_persists hm (hlater.mono him) hassigned hn hhalts

omit h hi

theorem assignmentHead_spans (hi : i ≤ text.length) (h : Spans text assignmentHead i n) :
    ∃ m k, Spans text identifier i m ∧ Spans text ws m k ∧ ∃ c tail, text.drop k = c :: tail ∧
      c ∈ [':', '='] ∧ ∀ e, ¬Spans text operator k e := by
  simp only [assignmentHead, hint, spans_ap, spans_keep, spans_fmap, spans_optional, spans_skip] at h
  obtain ⟨_, ⟨_, ⟨k', ⟨_, ⟨m, hname, hhint⟩, hws'⟩, hequals⟩, ⟨v, hguard⟩⟩, -⟩ := h
  have hm := hname.inside hi
  rcases hhint with ⟨_, ⟨_, ⟨k, hws, hcolon⟩, -⟩, -⟩ | ⟨-, hend⟩
  · have hk := hws.inside hm
    obtain ⟨-, tail, htail⟩ := drop_of_lit (c := ':') rfl hk hcolon
    have hends : Ends text [':'] k := ends_of_starts (spans_lit hk hcolon).1
    exact ⟨m, k, hname, hws, ':', tail, htail, by decide, fun e => hends.not_spans hk (by decide)⟩
  · rw [hend] at hws'
    have hk := hws'.inside hm
    obtain ⟨rfl, tail, htail⟩ := drop_of_lit (c := '=') rfl hk hequals
    refine ⟨m, k', hname, hws', '=', tail, htail, by decide, fun e hoperator => ?_⟩
    -- The only operator that begins with an equals sign goes on with another one.
    obtain ⟨op, hop, -⟩ := operator_spans hk hoperator
    rw [htail] at hop
    have hsecond : "=".toList.isPrefixOf tail = true := by
      cases op <;> first | exact hop | cases hop
    obtain ⟨u, hread⟩ : Spans text (lit "=") (k' + 1) (k' + 2) := by
      refine ⟨_, (read_text (hequals.inside hk) _ _).trans (if_pos ?_)⟩
      rw [(drop_succ htail).2]
      exact hsecond
    rw [read_notFollowedBy, hread] at hguard
    cases hguard

theorem prompt_misses_of_name (hi : i ≤ text.length) (hname : Spans text identifier i m)
    (hparen : ¬Ends text ['('] m) : read text prompt i = .miss := by
  by_contra hne
  obtain ⟨_, hprompt⟩ := spans_of_ne_miss rfl hne
  rcases prompt_cases hi hprompt with hbacktick | hllm
  · exact hbacktick.clash hi hname (by decide)
  · obtain ⟨_, _, _, _, _, hllm, -⟩ := llm_spans hllm
    obtain ⟨hname', hends, -⟩ := llm_name hi hllm
    exact hparen (hname.unique hname' ▸ hends)

/-- Where a value ends that could have been a name to assign to, there is no assignment. -/
theorem Halts.assignment_misses (h : Halts front back rest n) (hi : i ≤ front.length)
    (hvalue : Spans (front ++ ';' :: rest) value i n) :
    read (front ++ ';' :: rest) assignment i = .miss := by
  by_contra hne
  have hi' : i ≤ (front ++ ';' :: rest).length := le_append hi
  obtain ⟨_, hhead, -⟩ := seq_opens (p := assignmentHead) (q := assigned) rfl hne
  obtain ⟨m, k, hname, hws, c, tail, htail, hc, hoperator⟩ := assignmentHead_spans hi' hhead
  have hm := hname.inside hi'
  have hk := hws.inside hm
  have hends : Ends (front ++ ';' :: rest) [':', '='] k := by
    intro d hd
    rw [htail] at hd
    cases hd
    exact hc
  -- A parenthesis does not follow the name.
  have hparen : ¬Ends (front ++ ';' :: rest) ['('] m := by
    intro hparen
    obtain rfl := hparen.spans_eq hm hws (by decide)
    have hc' := hparen c (by rw [htail]; rfl)
    rw [List.mem_singleton.mp hc'] at hc
    exact absurd hc (by decide)
  have hcall : ∀ {e}, ¬Spans (front ++ ';' :: rest) call i e :=
    fun hcall => hparen (call_rest hi' hcall hname)
  have hprompt := prompt_misses_of_name hi' hname hparen
  rcases value_cases hi' hname hprompt hvalue with (rfl | hspans) | ⟨b, k', rfl | hspans, hws', -, hgoes⟩
  · have hplain := h.plain k c hws (by rw [htail]; rfl)
    exact hplain (List.mem_cons_of_mem _ hc)
  · exact hcall hspans
  · obtain rfl := hws.unique hws'
    rcases hgoes with hsteps | ⟨e, hspans⟩
    · have hc' := hsteps c (by rw [htail]; rfl)
      exact not_mem_of_apart (by decide) hc hc'
    · exact hoperator e hspans
  · exact hcall hspans

end AgentLang.Grammar
