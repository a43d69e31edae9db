import AgentLang.Proofs.Grammar.Reading
import AgentLang.Proofs.Parse.Yield

/-!
# Items of a source text

A program is read item by item from the start of the text, until no item follows. Where the
repetition stops is the end of the last item, whatever the rest of the text is.
-/

namespace AgentLang.Grammar

open Parse (Cursor Reply Reach Engine)

variable {text : List Char} {pos last : Nat} {nodes : List Node}

/-- Items that follow each other from one position to another. -/
inductive Items (text : List Char) : Nat → List Node → Nat → Prop where
  | nil (pos : Nat) : Items text pos [] pos
  | cons {pos last : Nat} {node : Node} {next : Cursor} {reach : Reach} {nodes : List Node}
      (hitem : run? bodyItem text pos = some ⟨.success node next, reach⟩) (hmoves : next.pos ≠ pos)
      (hothers : Items text next.pos nodes last) : Items text pos (node :: nodes) last

/-- The items from a position of a text up to the place where none follows any more. -/
structure Consumed (text : List Char) (start : Nat) (nodes : List Node) (last : Nat) : Prop where
  items : Items text start nodes last
  stops : ∀ reply, run? bodyItem text last = some reply → reply.Ends fun next => next.pos = last

/-- How the repetition of items ends at `last`: it succeeds there, or an item fails for good. -/
def StopsAt (text : List Char) (nodes : List Node) (last : Nat) (reply : Reply (List Node)) : Prop :=
  match reply.outcome with
  | .success values next => values = nodes ∧ next = Cursor.ofPos text last
  | .failure pos committed => ∃ reach, run? bodyItem text last = some ⟨.failure pos committed, reach⟩

theorem run?_of_plain {α : Type} {p : Parser α} {depth : Nat} (hc : c.On text) {reply : Reply α}
    (h : (grammar.plain (text.length + 2) depth).run p c = some reply) :
    run? p text c.pos = some reply := by
  refine run?_eq_some_iff.mpr ⟨depth, ?_⟩
  rw [← hc]
  exact h

theorem on_of_run? {value : α} (h : run? p text pos = some ⟨.success value next, reach⟩) :
    next.On text := by
  obtain ⟨depth, hplain⟩ := eval_of_run? h
  have hproceeds := Parse.Grammar.eval_proceeds (fun r _ => body_not_nullable r) (Nat.le_refl _) p
    (Cursor.on_ofPos text pos) _ hplain
  exact (Parse.Reply.ends_success.mp hproceeds.leads).on

/-- The repetition reads a chain of items, one in each round. -/
theorem consumed_of_repeated {depth : Nat} (hc : c.On text)
    (h : (grammar.plain (text.length + 2) depth).repeated ((grammar.plain (text.length + 2)
      depth).run bodyItem) rounds c = some reply) :
    ∃ nodes last, Consumed text c.pos nodes last ∧ StopsAt text nodes last reply := by
  induction rounds generalizing c reply with
  | zero => exact nomatch h
  | succ rounds ih =>
    obtain ⟨first, hfirst, hothers⟩ := Option.bind_eq_some_iff.mp h
    have hitem := run?_of_plain hc hfirst
    -- Where the first item ends the repetition, no item has been read.
    have hnone : (first.Ends fun next => next.pos = c.pos) → StopsAt text [] c.pos reply →
        ∃ nodes last, Consumed text c.pos nodes last ∧ StopsAt text nodes last reply := by
      intro hends hstops
      refine ⟨[], c.pos, ⟨.nil _, fun reply hreply => ?_⟩, hstops⟩
      obtain rfl := Option.some.inj (hitem.symm.trans hreply)
      exact hends
    obtain ⟨outcome, reach⟩ := first
    cases outcome with
    | failure pos committed =>
      cases committed with
      | none =>
        cases hothers
        exact hnone Parse.Reply.ends_failure ⟨rfl, hc⟩
      | some message =>
        cases hothers
        exact hnone Parse.Reply.ends_failure ⟨reach, hitem⟩
    | success node next =>
      dsimp only at hothers
      split at hothers
      next hstays =>
        cases hothers
        exact hnone (Parse.Reply.ends_success.mpr hstays) ⟨rfl, hc⟩
      next hmoves =>
        obtain ⟨others, hrest, hreply⟩ := Option.bind_eq_some_iff.mp hothers
        cases hreply
        obtain ⟨nodes, last, hconsumed, hlast⟩ := ih (on_of_run? hitem) hrest
        refine ⟨node :: nodes, last, ⟨.cons hitem hmoves hconsumed.items, hconsumed.stops⟩, ?_⟩
        obtain ⟨outcome, reach⟩ := others
        cases outcome with
        | success values next => exact ⟨congrArg _ hlast.1, hlast.2⟩
        | failure pos committed => exact hlast

end AgentLang.Grammar
