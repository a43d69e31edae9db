import AgentLang.Proofs.Grammar.CutAssignment

/-!
# Cutting statements with bodies

Definitions and conditionals, and with them all statements: what has been read of a text as a
statement and has ended inside a beginning of it is the same statement there, unless an `else`
would follow.
-/

namespace AgentLang.Grammar

open Verdict
open Parse.Parser (lit word)

variable {front back : List Char} {i n : Nat}

/-! ### Definitions -/

section

variable (ht : Tight front back) (hi : i ≤ front.length)
include ht hi

theorem cuts_parameter :
    Cuts front back (fun n => read front (ws *> lit "=") n = .miss) parameter i :=
  Firm.seq hi (Cuts.map (firm_identifier ht hi) _) fun _ _ _ hn => cuts_hint ht hn

theorem follows_parameterList :
    Follows front back parameterList i := by
  refine Keeps.keep hi ?_ fun n _ _ hn => (firm_closing hn _).follows
  refine Keeps.keep hi ?_ fun n _ _ hn => (cuts_space hn).follows
  have hopen : Follows front back (lit "(" *> space : Parser String) i :=
    Keeps.skip hi (firm_lit hi _).follows fun n _ _ hn => (cuts_space hn).follows
  refine Keeps.skip hi hopen fun n _ _ hn => ?_
  refine Mirrors.sepBy hn hn (cuts_parameter ht hn).agrees fun m _ hm => ?_
  refine Mirrors.many hm rfl fun j _ hj => ?_
  exact Cuts.agrees
    (Cuts.skip_shut hj (cuts_comma hj).ends (by decide) fun k _ _ hk => cuts_parameter ht hk)

omit ht in
theorem firm_docString : Firm front back docString i :=
  Cuts.map (cuts_token_seq hi (firm_exactly hi) (fun n _ hn => firm_through hn (by decide) _)
    (fun _ _ => False.elim)) _

omit ht in
theorem follows_functionBody (hlater : Later front back i) :
    Follows front back functionBody i := by
  refine Follows.items hi (Carries.map ?_ _) fun j _ hlt hj => hlater j (hlt rfl) hj
  refine Keeps.skip hi (firm_lit hi _).follows fun n _ _ hn => Mirrors.optional ?_
  exact Cuts.agrees (Cuts.skip_shut hn (cuts_space hn).ends (by decide) fun m _ _ hm => firm_docString hm)

theorem cuts_functionHead :
    Cuts front back (Ends front []) (word "def" *> ws1 : Parser String) i :=
  Firm.skip hi (firm_word ht hi (by decide)) fun _ _ _ hn => cuts_ws1 hn

theorem agrees_functionDefinition
    (hlater : Later front back i) : Agrees front back functionDefinition i := by
  refine Mirrors.commit hi (cuts_functionHead ht hi).agrees fun n hin _ hn => ?_
  refine Keeps.seq hn ?_ fun m hnm _ hm =>
    follows_functionBody hm (hlater.mono (Nat.le_trans hin hnm))
  refine Keeps.keep hn ?_ fun m _ _ hm => (cuts_ws hm).follows
  refine Keeps.seq hn ?_ fun m _ _ hm => (cuts_hint ht hm).follows
  refine Keeps.seq hn ?_ fun m _ _ hm => follows_parameterList ht hm
  refine Keeps.keep hn ?_ fun m _ _ hm => (cuts_ws hm).follows
  exact (firm_identifier ht hn).follows.map _

/-- The first word of a node that says who may use it. -/
def visibilityHead : Parser Visibility :=
  visibilityWord <* ws1

theorem cuts_visibilityHead :
    Cuts front back (Ends front []) visibilityHead i :=
  Firm.keep hi (inside_visibilityWord ht hi).firm fun _ _ _ hn => cuts_ws1 hn

theorem follows_graphNodeDefinition
    (hlater : Later front back i) : Follows front back graphNodeDefinition i := by
  have hvisibility : Follows front back visibility i :=
    Mirrors.optional (cuts_visibilityHead ht hi).agrees
  refine Keeps.seq hi ?_ fun n hin _ hn => follows_body hn (hlater.mono hin)
  refine Keeps.keep hi ?_ fun n _ _ hn => (cuts_ws hn).follows
  refine Keeps.seq hi ?_ fun n _ _ hn => (cuts_hint ht hn).follows
  refine Keeps.seq hi ?_ fun n _ _ hn => follows_parameterList ht hn
  refine Keeps.keep hi ?_ fun n _ _ hn => (cuts_ws hn).follows
  refine Keeps.seq hi ?_ fun n _ _ hn => (firm_identifier ht hn).follows
  refine Keeps.keep hi ?_ fun n _ _ hn => (cuts_ws1 hn).follows
  refine Keeps.keep hi ?_ fun n _ _ hn => (firm_word ht hn (by decide)).follows
  exact hvisibility.map _

end

/-! ### Conditionals -/

/-- A conditional that ends inside the beginning is read of the other text too, if no `else` follows
it there. -/
def ConditionalCarries (front back target : List Char) (i : Nat) : Prop :=
  ∀ v n, read (front ++ back) ifElse i = .ok v n → n ≤ front.length →
    read target elseOpening n = .miss → read target ifElse i = .ok v n

theorem elseBranch_opens (h : read text elseBranch i ≠ .miss) :
    read text elseOpening i ≠ .miss := by
  intro hnone
  obtain ⟨k, ⟨v, hhead⟩, hbranch⟩ := skip_opens rfl h
  rw [elseOpening, read_skip, hhead] at hnone
  dsimp only [Verdict.bind] at hnone
  simp only [read_choice_cons, read_choice_nil, orElse_eq_miss, and_true] at hnone
  refine hbranch ?_
  simp only [read_choice_cons, read_choice_nil, orElse_eq_miss, and_true, read_fmap, map_eq_miss]
  constructor
  · simp only [read_ifElse, ifElseBody, read_ap, read_keep, read_fmap, read_skip, hnone.1]
    rfl
  · by_contra hne
    obtain ⟨_, hbrace⟩ := body_opens hne
    exact hbrace.ne_miss hnone.2

section

variable {target : List Char} (hle : front.length ≤ target.length) (hi : i ≤ front.length)
  (hbody : ∀ j, i < j → j ≤ front.length → Keeps front back target body j)
  (hconditional : ∀ j, i < j → j ≤ front.length → ConditionalCarries front back target j)
include hle hi hbody hconditional

theorem elseBranch_carried (hhead : Keeps front back target (space *> word "else" *> ws) i)
    (h : read (front ++ back) elseBranch i = .ok v n) (hn : n ≤ front.length)
    (helse : read target elseOpening n = .miss) : read target elseBranch i = .ok v n := by
  refine skip_carried hi hhead h hn fun u k _ hlt hk hbranch => ?_
  refine choice_carried hbranch (fun hnested => ?_) (fun h => ?_) fun _ _ hother => ?_
  · rw [read_fmap] at hnested ⊢
    obtain ⟨w, hread, rfl⟩ := map_eq_ok.mp hnested
    rw [hconditional k (hlt rfl) hk w n hread hn helse]
    rfl
  · exact choice_last h fun h => (hbody k (hlt rfl) hk).read h hn
  · -- A body does not begin with a word.
    have hk := Nat.le_trans hk hle
    refine (hother.ends ['\x7b'] hk rfl fun c hc => ?_).eq_miss hk (by decide)
    simpa [begins, body] using hc

theorem conditional_carried
    (hblock : Keeps front back target (Node.ifElse <$> conditional "if" <* ws <*> body) i)
    (hhead : ∀ j, i ≤ j → j ≤ front.length →
      Keeps front back target (space *> word "else" *> ws) j) :
    ConditionalCarries front back target i := by
  intro v n h hn helse
  rw [read_ifElse] at h ⊢
  refine seq_carried (p := Node.ifElse <$> conditional "if" <* ws <*> body)
    (q := .optional elseBranch) hi hblock h hn fun w m him _ hm hoptional => ?_
  rw [read_optional] at hoptional ⊢
  rcases orElse_eq_ok.mp hoptional with hsome | ⟨-, hnone⟩
  · obtain ⟨u, hbranch, rfl⟩ := map_eq_ok.mp hsome
    rw [elseBranch_carried hle hm (fun j hj => hbody j (Nat.lt_of_le_of_lt him hj))
      (fun j hj => hconditional j (Nat.lt_of_le_of_lt him hj)) (hhead m him hm) hbranch hn helse]
    rfl
  · obtain ⟨rfl, rfl⟩ := Verdict.ok.inj hnone
    have hmiss : read target elseBranch m = .miss := by
      by_contra hne
      exact elseBranch_opens hne helse
    rw [hmiss]
    rfl

end

theorem follows_elseHead (ht : Tight front back) (hi : i ≤ front.length) :
    Follows front back (space *> word "else" *> ws) i := by
  refine Keeps.skip hi ?_ fun n _ _ hn => (cuts_ws hn).follows
  exact Keeps.skip hi (cuts_space hi).follows fun n _ _ hn => (firm_word ht hn (by decide)).follows

/-! ### Statements -/

theorem statement_of_whole (ht : Tight front back) (hi : i ≤ front.length)
    (hlater : Later front back i) (hconditional : ConditionalCarries front back front i) :
    StatementFollows front back i := by
  intro v n e h hend he helse
  have hbounds := read_bounds h (le_append hi)
  have hn : n ≤ front.length := Nat.le_trans (hend.bounds hbounds.2.1).1 he
  rw [read_statement] at h ⊢
  refine (agrees_importStatement ht hi).choice_carried hn h fun h => ?_
  refine (agrees_functionDefinition ht hi hlater).choice_carried hn h fun h => ?_
  refine choice_carried h (fun h => (follows_graphNodeDefinition ht hi hlater).read h hn)
    (fun h => ?_) fun _ h _ => graphNode_misses ht hi hend h
  refine (cuts_typeHint ht hi).agrees.choice_carried hn h fun h => ?_
  refine (cuts_specialVar ht hi).agrees.choice_carried hn h fun h => ?_
  refine (cuts_returnStatement ht hi).agrees.choice_carried hn h fun h => ?_
  refine (firm_goto ht hi).agrees.choice_carried hn h fun h => ?_
  refine (cuts_usesTool ht hi).agrees.choice_carried hn h fun h => ?_
  refine choice_carried h (fun h => hconditional v n h hn helse)
    (fun h => ?_) fun _ h _ => ifElse_misses ht hi hend h
  refine choice_carried h (fun h => (follows_whileLoop ht hi hlater).read h hn)
    (fun h => ?_) fun _ h _ => while_misses ht hi hend h
  refine choice_carried h (fun h => (follows_selection ht hi hlater).read h hn)
    (fun h => ?_) fun _ h _ => selection_misses ht hi hend h
  refine choice_carried h (fun h => (follows_messageThread ht hi hlater).read h hn)
    (fun h => ?_) fun _ h _ => thread_misses ht hi hend h
  refine choice_carried h (fun h => (follows_timeBlock ht hi hlater).read h hn)
    (fun h => ?_) fun _ h _ => time_misses ht hi hend h
  refine choice_carried h
    (fun h => assignment_of_whole ht hi hlater h hn (unbraced_of_end hbounds.2.1 hend))
    (fun h => ?_) fun hmiss _ _ => assignment_misses ht hi hmiss
  exact choice_last h fun h => (Cuts.map (expressions ht hi).value Node.expr).eq_ok h hn

/-- Statements are followed by induction on what is left of the beginning. -/
theorem statements_of_whole (ht : Tight front back) (hi : i ≤ front.length) :
    StatementFollows front back i ∧ ConditionalCarries front back front i := by
  induction hleft : front.length - i using Nat.strongRecOn generalizing i with
  | ind left ih =>
    have hboth : ∀ j, i < j → j ≤ front.length →
        StatementFollows front back j ∧ ConditionalCarries front back front j :=
      fun j hj hle => ih _ (by omega) hle rfl
    have hlater : Later front back i := fun j hj hle => (hboth j hj hle).1
    have hconditional : ConditionalCarries front back front i :=
      conditional_carried (Nat.le_refl _) hi
        (fun j hj hle => follows_body hle (hlater.mono (Nat.le_of_lt hj)))
        (fun j hj hle => (hboth j hj hle).2)
        (follows_block hi (firm_conditional ht hi (by decide)).follows hlater)
        fun j _ hj => follows_elseHead ht hj
    exact ⟨statement_of_whole ht hi hlater hconditional, hconditional⟩

end AgentLang.Grammar
