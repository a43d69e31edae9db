import AgentLang.Proofs.Grammar.CutValue

/-!
# Expressions and types in a cut text

The facts about single kinds of expressions refer to each other at later places of the text. They
hold together at all places, by induction on what is left of the beginning.
-/

namespace AgentLang.Grammar

open List
open Verdict
open Parse.Parser (lit word)

variable {α : Type} {front back : List Char} {K : Nat → Prop} {i n : Nat}

/-! ### Types -/

variable (ht : Tight front back) (hi : i ≤ front.length)
include ht hi

theorem firm_genericArrayType (htype : Beyond front i (Cuts front back (Ends front ['[']) type)) :
    Firm front back genericArrayType i := by
  refine Cuts.map (Cuts.keep_lit hi (H := ['[', '/']) ?_ (by decide)) _
  refine Cuts.keep hi (L := Ends front ['[']) ?_
    (fun n _ _ hn => (cuts_space hn).mono fun m _ h => h.1.mono (by simp))
    (fun n hn h => h.closes_still hn rfl (by decide) (h.mono (by simp)))
  refine Cuts.skip_shut hi (Firm.skip_space hi ?_).ends (by decide)
    fun n _ hlt hn => htype n (hlt rfl) hn
  exact Cuts.skip_lit hi (Firm.skip_ws hi (firm_word ht hi (by decide))) (by decide)

theorem firm_primitiveType : Firm front back primitiveType i := by
  refine Cuts.map (Cuts.alt_of_heads ['n'] hi (firm_word ht hi (by decide))
    (Cuts.alt_of_heads ['s'] hi (firm_word ht hi (by decide))
      (Cuts.last (firm_word ht hi (by decide))) rfl ?_ (by decide) rfl)
    rfl ?_ (by decide) rfl) _
  · exact fun c hc => by simpa [begins] using hc
  · exact fun c hc => by simpa [begins] using hc

theorem firm_baseType (htype : Beyond front i (Cuts front back (Ends front ['[']) type)) :
    Firm front back baseType i := by
  have hnumber : Firm front back
      (Parse.Parser.choice [numberLiteralType, booleanLiteralType]) i := by
    refine Cuts.alt_of_inside hi (Cuts.map (firm_number_token ht hi _) _)
      (Cuts.last (Cuts.map (firm_truth ht hi) _)) rfl rfl fun v n hok hn => ?_
    obtain ⟨v, hok, -⟩ := map_eq_ok.mp ((read_fmap _ _).symm.trans hok)
    exact number_inside ht hi hok hn
  have hstring : Firm front back
      (Parse.Parser.choice [stringLiteralType, numberLiteralType, booleanLiteralType]) i := by
    refine Cuts.alt_of_heads ['"'] hi (Cuts.map (firm_enclosed hi rfl _) _) hnumber rfl
      (fun c hc => ?_) (by decide) rfl
    simpa [begins, stringLiteralType, Shape.enclosed] using hc
  have hprimitive : Firm front back (Parse.Parser.choice
      [primitiveType, stringLiteralType, numberLiteralType, booleanLiteralType]) i := by
    refine Cuts.alt_of_heads ['n', 's', 'b'] hi (firm_primitiveType ht hi) hstring rfl
      (fun c hc => ?_) (by decide) rfl
    simpa [begins, primitiveType] using hc
  refine Cuts.alt_of_heads ['a'] hi (firm_genericArrayType ht hi htype) hprimitive rfl
    (fun c hc => ?_) (by decide) rfl
  simpa [begins, genericArrayType] using hc

theorem cuts_typeBody (htype : Beyond front i (Cuts front back (Ends front ['[']) type)) :
    Cuts front back (Ends front ['[']) typeBody i := by
  refine Firm.seq hi (Cuts.map (firm_baseType ht hi htype) _) fun n _ _ hn => ?_
  refine Cuts.many hn rfl (fun j _ hj => firm_lit hj "[]") ?_ (fun _ _ => False.elim)
  intro j v m _ hj hok _ _
  refine (ends_of_read ['['] hok (le_append hj) rfl fun c hc => ?_).of_whole
  simpa [begins] using hc

theorem cuts_type : Cuts front back (Ends front ['[']) type i := by
  induction hleft : front.length - i using Nat.strongRecOn generalizing i with
  | ind left ih =>
    refine Cuts.call (cuts_typeBody ht hi fun j hij hj => ?_)
    exact ih _ (by omega) hj rfl

/-- Where a hint has been cut, no equals sign follows. -/
theorem cuts_hint : Cuts front back (fun n => read front (ws *> lit "=") n = .miss) hint i := by
  have htype : Cuts front back (Ends front ['[']) (ws *> lit ":" *> ws *> type) i :=
    Cuts.skip_shut hi (Firm.skip_ws hi (Cuts.skip_lit hi (cuts_ws hi) (by decide))) (by decide)
      fun n _ _ hn => cuts_type ht hn
  refine Cuts.optional hi (htype.mono fun n hn h => h.eq_miss hn (by decide)) ?_
  intro v n hok _
  -- Beyond the same blanks there is a colon in the whole text.
  by_contra hne
  obtain ⟨m, hspans⟩ := spans_of_ne_miss rfl hne
  obtain ⟨k, hblanks, hequals⟩ := spans_skip.mp hspans
  have hk := hblanks.inside hi
  have hblanks' : Spans (front ++ back) ws i k := hblanks.whole_ws hi hequals (by decide)
  have hwhole : Spans (front ++ back) (ws *> lit ":" *> ws *> type) i n := ⟨v, hok⟩
  simp only [spans_skip] at hwhole
  obtain ⟨_, ⟨_, ⟨_, hblanks₂, hcolon⟩, -⟩, -⟩ := hwhole
  obtain rfl := hblanks'.unique hblanks₂
  have hends : Ends (front ++ back) [':'] k := ends_of_starts (spans_lit (le_append hk) hcolon).1
  exact hends.clash (le_append hk) (hequals.whole (firm_lit hk "=") rfl) (by decide)

/-! ### Expressions -/

omit ht hi

/-- Alternatives of which it does not matter where they end early. -/
theorem Cuts.choice (h : ∀ p ∈ ps, Cuts front back (fun _ => True) p i)
    (hopen : ∀ p ∈ ps, harmless p = true) :
    Cuts front back (fun _ => True) (Parse.Parser.choice ps) i := by
  induction ps with
  | nil => exact Cuts.fail
  | cons p ps ih =>
    have hothers := ih (fun q hq => h q (mem_cons_of_mem p hq))
      (fun q hq => hopen q (mem_cons_of_mem p hq))
    refine Cuts.alt (h p mem_cons_self) hothers (read_ne_dead (harmless_choice ?_))
      fun _ _ _ _ _ _ _ _ => trivial
    exact fun q hq => hopen q (mem_cons_of_mem p hq)

theorem Cuts.any (h : Cuts front back K p i) : Cuts front back (fun _ => True) p i :=
  h.mono fun _ _ _ => trivial

/-- How the expressions from a place on may end early. -/
structure Expressions (front back : List Char) (i : Nat) : Prop where
  call : Firm front back call i
  array : Firm front back array i
  object : Firm front back object i
  prompt : Firm front back prompt i
  literal : Cuts front back (Ends front ['"', '(']) literal i
  access : Cuts front back (Ends front ['.', '[', '(']) access i
  argument : Cuts front back (Ends front nounEnds) argument i
  item : Cuts front back (Ends front nounEnds) item i
  operand : Cuts front back (Ends front nounEnds) operand i
  binary : Cuts front back (Ends front nounEnds) binary i

namespace Expressions

theorem simple (h : Expressions front back i) (hi : i ≤ front.length) :
    Cuts front back (Ends front nounEnds) simple i :=
  cuts_simple hi h.call h.access h.literal

theorem value (h : Expressions front back i) : Cuts front back (fun _ => True) value i := by
  have hbody : Cuts front back (fun _ => True) valueBody i := by
    unfold valueBody
    refine Cuts.choice ?_ ?_
    · simp only [forall_mem_cons, not_mem_nil, false_imp_iff, implies_true, and_true]
      exact ⟨h.binary.any, h.prompt.any, h.access.any, Cuts.any (Cuts.map h.call _), h.array.any,
        Cuts.any (Cuts.map h.object _), h.literal.any⟩
    · simp only [forall_mem_cons, not_mem_nil, false_imp_iff, implies_true, and_true]
      exact ⟨rfl, rfl, rfl, rfl, rfl, rfl, rfl⟩
  exact Cuts.call hbody

theorem condition (h : Expressions front back i) (hi : i ≤ front.length) :
    Cuts front back (fun n => read front (space *> closing ")") n = .miss) condition i :=
  Cuts.call (cuts_conditionBody hi h.binary (h.simple hi))

include ht hi

theorem of_later (later : Beyond front i (Expressions front back)) :
    Expressions front back i := by
  have hcall : Firm front back Grammar.call i :=
    Cuts.call (firm_callBody ht hi fun j hij hj => (later j hij hj).argument)
  have harray : Firm front back Grammar.array i :=
    Cuts.call (firm_arrayBody hi fun j hij hj => (later j hij hj).item)
  have hobject : Firm front back Grammar.object i :=
    Cuts.call (firm_objectBody ht hi fun j hij hj => (later j hij hj).item)
  have hprompt : Firm front back Grammar.prompt i :=
    Cuts.call (firm_promptBody ht hi fun j hij hj => (later j hij hj).object)
  have hliteral : Cuts front back (Ends front ['"', '(']) Grammar.literal i :=
    Cuts.call (cuts_literalBody ht hi hprompt)
  have haccess : Cuts front back (Ends front ['.', '[', '(']) Grammar.access i :=
    Cuts.call (cuts_accessBody ht hi hcall (fun j hij hj => (later j hij hj).call)
      fun j hij hj => (later j hij hj).item)
  have hargument : Cuts front back (Ends front nounEnds) argumentBody i :=
    cuts_argumentBody hi hprompt (cuts_simple hi hcall haccess hliteral)
  have hnoun := cuts_noun hi hobject harray hargument
  have hoperand : Cuts front back (Ends front nounEnds) Grammar.operand i := Cuts.call hnoun
  exact {
    call := hcall
    array := harray
    object := hobject
    prompt := hprompt
    literal := hliteral
    access := haccess
    argument := Cuts.call hargument
    item := Cuts.call hnoun
    operand := hoperand
    binary := Cuts.call (cuts_binaryBody hi hoperand fun j hij hj => (later j hij hj).operand) }

end Expressions

theorem expressions (ht : Tight front back) (hi : i ≤ front.length) : Expressions front back i := by
  induction hleft : front.length - i using Nat.strongRecOn generalizing i with
  | ind left ih => exact Expressions.of_later ht hi fun j hij hj => ih _ (by omega) hj rfl

variable (ht : Tight front back) (hi : i ≤ front.length)
include ht hi

theorem firm_parenthesized : Firm front back parenthesized i :=
  Cuts.closed rfl (by decide) hi (Cuts.skip_shut hi (Firm.skip_space hi (firm_lit hi _)).ends
    (by decide) fun _ _ _ hn => (expressions ht hn).condition hn)

end AgentLang.Grammar
