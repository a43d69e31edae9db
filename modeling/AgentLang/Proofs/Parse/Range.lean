import AgentLang.Proofs.Parse.Termination
import AgentLang.Proofs.Parse.Yield

/-!
# Where parsers stop

A parser stops between its start and the end of the text, on whichever side of the end it starts.
Past the end it may go back, but only to the end, so every repetition leaves its loop.
-/

namespace AgentLang.Parse

theorem Cursor.Leads.between (h : Leads text c next) :
    min c.pos text.length ≤ next.pos ∧ next.pos ≤ max c.pos text.length := by
  rcases Nat.lt_or_ge text.length c.pos with hout | hin
  · have := h.outside hout
    omega
  · have := h.inside hin
    omega

namespace Grammar

variable {S : Signature} [DecidableEq S.Rule] [Hashable S.Rule] {α : Type} {G : Grammar S}
  {text : List Char} {pos rounds rounds' depth depth' : Nat}

theorem session_leads (h : G.session rounds depth p (.ofPos text pos) {} = some (reply, memory)) :
    reply.Ends (Cursor.Leads text (.ofPos text pos)) := by
  have hc := Cursor.on_ofPos text pos
  obtain ⟨-, least, hleast⟩ := eval_of_session hc faithful_empty h
  -- Rounds enough for every repetition leave the reply as it is.
  have heval := eval_mono (Nat.le_max_left rounds (text.length + 2)) (Nat.le_refl least)
    (hleast least (Nat.le_refl _))
  have hempty (r : S.Rule) : (fun _ : S.Rule => true) r = false →
      (G.body r).nullable (fun _ => true) = false := nofun
  exact (eval_proceeds hempty (Nat.le_max_right _ _) p hc reply heval).leads

theorem matchToken_past (hshape : shape.match? [] = some 0) (name : String)
    (hpos : text.length < pos) :
    Engine.matchToken shape name (.ofPos text pos) = .succeed "" (.ofPos text text.length) := by
  have hrest : text.drop pos = [] := List.drop_eq_nil_of_le (Nat.le_of_lt hpos)
  have hback : pos - (pos - text.length) = text.length := Nat.sub_sub_self (Nat.le_of_lt hpos)
  rw [Engine.matchToken, Cursor.ofPos, hrest]
  simp [hshape, Cursor.ofPos, Cursor.clamp, Cursor.advance, hback]

end Grammar
end AgentLang.Parse
