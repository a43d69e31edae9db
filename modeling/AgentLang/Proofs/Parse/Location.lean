import AgentLang.Proofs.Parse.Parts
import AgentLang.Proofs.Parse.Reach
import AgentLang.Proofs.Parse.Yield

/-!
# Where parsers stop and fail

A parser that is started inside a text stops inside it and not before its start, and so do the
failures that it reports. A failure always comes with something that was expected, at or behind the
place where the parser failed. Only a choice without alternatives fails for no reason.
-/

namespace AgentLang.Parse

variable {S : Signature} {α β : Type}

namespace Parser

def isFail : Parser S α → Bool
  | .fail => true
  | _ => false

/-- Whether no choice in the parser is without alternatives. The last alternative of a choice stands
before the failure that ends it. -/
def filled : {α : Type} → Parser S α → Bool
  | _, .fail => false
  | _, .map _ p => p.filled
  | _, .seq p q => p.filled && q.filled
  | _, .alt p q => p.filled && (q.isFail || q.filled)
  | _, .optional p => p.filled
  | _, .many p => p.filled
  | _, .many1 p => p.filled
  | _, .sepBy p separator => p.filled && separator.filled
  | _, .lookahead p => p.filled
  | _, .notFollowedBy p _ => p.filled
  | _, .label p _ => p.filled
  | _, .commit p _ => p.filled
  | _, .probe _ p => p.filled
  | _, _ => true

theorem eq_fail_of_isFail {p : Parser S α} (h : p.isFail = true) : p = .fail := by
  cases p <;> first | rfl | exact nomatch h

end Parser

namespace Reply

variable {text : List Char} {start middle : Nat} {reply : Reply α}

/-- The reply of a parser started at a position stops and fails between there and the end of the
text, and tells what was expected where it fails. -/
def Located (text : List Char) (start : Nat) (reply : Reply α) : Prop :=
  match reply.outcome with
  | .success _ next => next.On text ∧ start ≤ next.pos ∧ next.pos ≤ text.length ∧
      reply.reach.Between start text.length
  | .failure pos _ => start ≤ pos ∧ reply.reach.Arrives pos text.length

theorem Located.map (h : reply.Located text start) (f : α → β) :
    (reply.map f).Located text start := by
  obtain ⟨outcome, reach⟩ := reply
  cases outcome <;> exact h

theorem Located.after (hearlier : earlier.Between start text.length) (hle : start ≤ middle)
    (h : reply.Located text middle) : (reply.after earlier).Located text start := by
  obtain ⟨outcome, reach⟩ := reply
  cases outcome with
  | success value next =>
    obtain ⟨hon, hlow, hhigh, hreach⟩ := h
    exact ⟨hon, Nat.le_trans hle hlow, hhigh, hearlier.join (hreach.mono hle)⟩
  | failure pos committed =>
    obtain ⟨hlow, hreach⟩ := h
    exact ⟨Nat.le_trans hle hlow, hearlier.join_arrives hreach⟩

theorem Located.between (h : reply.Located text start) : reply.reach.Between start text.length := by
  obtain ⟨outcome, reach⟩ := reply
  cases outcome with
  | success value next => exact h.2.2.2
  | failure pos committed => exact (h.2.mono h.1).between

theorem Located.stay (hc : c.On text) (hle : c.pos ≤ text.length) (value : β)
    (h : reply.Located text c.pos) :
    (⟨.success value c, reply.reach⟩ : Reply β).Located text c.pos :=
  ⟨hc, Nat.le_refl _, hle, h.between⟩

theorem located_succeed (hc : c.On text) (hle : c.pos ≤ text.length) (value : α) :
    (succeed value c).Located text c.pos :=
  ⟨hc, Nat.le_refl _, hle, trivial⟩

theorem located_miss (hle : start ≤ text.length) (name : String) :
    (miss start name : Reply α).Located text start :=
  ⟨Nat.le_refl _, Reach.arrives_missed hle name⟩

theorem located_of_ends (hle : c.pos ≤ text.length) (hends : reply.Ends (Cursor.Leads text c))
    (hreply : (∃ value next, reply = succeed value next) ∨ ∃ name, reply = miss c.pos name) :
    reply.Located text c.pos := by
  rcases hreply with ⟨value, next, rfl⟩ | ⟨name, rfl⟩
  · have hnext := ends_succeed.mp hends
    exact ⟨hnext.on, (hnext.inside hle).1, (hnext.inside hle).2, trivial⟩
  · exact located_miss hle name

end Reply

/-! ### Plain runs -/

namespace Grammar

variable {G : Grammar S} {rounds depth : Nat} {text : List Char}

theorem andThen_located (hx : Results α x (Reply.Located text start))
    (hf : ∀ value next, next.On text → next.pos ≤ text.length →
      Results β (f value next) (Reply.Located text next.pos)) :
    Results β (Engine.andThen x f) (Reply.Located text start) := by
  refine results_bind fun reply hreply => ?_
  have hfirst := hx reply hreply
  obtain ⟨outcome, reach⟩ := reply
  cases outcome with
  | failure pos committed => exact results_pure hfirst
  | success value next =>
    obtain ⟨hon, hlow, hhigh, hreach⟩ := hfirst
    refine results_bind fun other hother => results_pure ?_
    exact (hf value next hon hhigh other hother).after hreach hlow

theorem repeated_located {E : Engine S Option} (hexhausted : ∀ α, E.exhausted (α := α) = none)
    {step : Cursor → Option (Reply α)}
    (hstep : ∀ c, c.On text → c.pos ≤ text.length → Results α (step c) (Reply.Located text c.pos))
    (hc : c.On text) (hle : c.pos ≤ text.length) :
    Results (List α) (E.repeated step k c) (Reply.Located text c.pos) := by
  induction k generalizing c with
  | zero => exact fun _ h => nomatch (hexhausted _).symm.trans h
  | succ k ih =>
    refine results_bind fun reply hreply => ?_
    have hfirst := hstep c hc hle reply hreply
    obtain ⟨outcome, reach⟩ := reply
    cases outcome with
    | failure pos committed =>
      cases committed with
      | none => exact results_pure (hfirst.stay hc hle [])
      | some message => exact results_pure hfirst
    | success value next =>
      dsimp only
      split
      · exact results_pure (hfirst.stay hc hle [])
      · obtain ⟨hon, hlow, hhigh, hreach⟩ := hfirst
        refine results_bind fun others hothers => results_pure ?_
        exact ((ih hon hhigh others hothers).map _).after hreach hlow

/-- A plain run is located where the rules are that it calls. -/
theorem run_located (p : Parser S α) (hp : p.filled = true) (hc : c.On text)
    (hle : c.pos ≤ text.length)
    (hcall : ∀ r ∈ p.rules, ∀ c, c.On text → c.pos ≤ text.length →
      Results _ (G.evalRule rounds depth r c) (Reply.Located text c.pos)) :
    Results α ((G.plain rounds depth).run p c) (Reply.Located text c.pos) := by
  induction p generalizing c with
  | text literal name =>
    refine results_pure (Reply.located_of_ends hle ?_ ?_)
    · exact (Engine.matchText_ends hc literal name).mono fun _ h => h.1
    · unfold Engine.matchText
      split <;> simp
  | keyword word name =>
    refine results_pure (Reply.located_of_ends hle ?_ ?_)
    · exact (Engine.matchKeyword_ends hc word name).mono fun _ h => h.1
    · unfold Engine.matchKeyword
      split <;> simp
  | token shape name =>
    refine results_pure (Reply.located_of_ends hle ?_ ?_)
    · exact (Engine.matchToken_ends hc shape name).mono fun _ h => h.1
    · unfold Engine.matchToken
      split <;> simp
  | eof =>
    refine results_pure (Reply.located_of_ends hle (Engine.matchEnd_ends hc) ?_)
    unfold Engine.matchEnd
    split <;> simp
  | pure value => exact results_pure (Reply.located_succeed hc hle value)
  | fail => exact nomatch hp
  | map f p ih =>
    refine results_bind fun reply hreply => results_pure ?_
    exact (ih hp hc hle hcall reply hreply).map f
  | seq p q ihp ihq =>
    have hp := Bool.and_eq_true_iff.mp hp
    obtain ⟨hfirst, hsecond⟩ := List.forall_mem_append.mp hcall
    refine andThen_located (ihp hp.1 hc hle hfirst) fun f next hon hnext => ?_
    refine results_bind fun reply hreply => results_pure ?_
    exact (ihq hp.2 hon hnext hsecond reply hreply).map f
  | alt p q ihp ihq =>
    have hp := Bool.and_eq_true_iff.mp hp
    obtain ⟨hfirst, hsecond⟩ := List.forall_mem_append.mp hcall
    refine results_bind fun reply hreply => ?_
    have hlocated := ihp hp.1 hc hle hfirst reply hreply
    obtain ⟨outcome, reach⟩ := reply
    split
    next pos heq =>
      cases heq
      obtain ⟨hlow, hreach⟩ := hlocated
      have harrives := hreach.mono hlow
      rcases Bool.or_eq_true_iff.mp hp.2 with hfail | hfilled
      · -- Behind the last alternative stands the failure that ends the choice.
        obtain rfl := Parser.eq_fail_of_isFail hfail
        refine results_pure ⟨Nat.le_refl _, ?_⟩
        rw [Reach.join_unseen]
        exact harrives
      · refine results_bind fun other hother => ?_
        have hothers := ihq hfilled hc hle hsecond other hother
        split
        · exact results_pure ⟨Nat.le_refl _, harrives.join hothers.between⟩
        · exact results_pure (hothers.after harrives.between (Nat.le_refl _))
    next => exact results_pure hlocated
  | optional p ih =>
    refine results_bind fun reply hreply => ?_
    have hlocated := ih hp hc hle hcall reply hreply
    split
    · exact results_pure (hlocated.stay hc hle none)
    · exact results_pure (hlocated.map some)
  | many p ih =>
    exact repeated_located (fun _ => rfl) (fun c hc hle => ih hp hc hle hcall) hc hle
  | many1 p ih =>
    refine results_bind fun reply hreply => ?_
    have hlocated := repeated_located (fun _ => rfl)
      (fun c hc hle => ih hp hc hle hcall) hc hle reply hreply
    split
    · refine results_bind fun first hfirst => ?_
      have hfirst := ih hp hc hle hcall first hfirst
      obtain ⟨outcome, reach⟩ := first
      split
      next heq =>
        cases heq
        exact results_pure hfirst
      next => exact results_pure hlocated
    · exact results_pure hlocated
  | sepBy p separator ihp ihs =>
    have hp := Bool.and_eq_true_iff.mp hp
    obtain ⟨hitem, hsep⟩ := List.forall_mem_append.mp hcall
    refine results_bind fun first hfirst => ?_
    have hlocated := ihp hp.1 hc hle hitem first hfirst
    obtain ⟨outcome, reach⟩ := first
    cases outcome with
    | failure pos committed =>
      cases committed with
      | none => exact results_pure (hlocated.stay hc hle [])
      | some message => exact results_pure hlocated
    | success value next =>
      obtain ⟨hon, hlow, hhigh, hreach⟩ := hlocated
      refine results_bind fun others hothers => ?_
      have hothers := repeated_located (fun _ => rfl)
        (fun c hc hle => andThen_located (ihs hp.2 hc hle hsep)
          fun _ last hlast hend => ihp hp.1 hlast hend hitem) hon hhigh others hothers
      obtain ⟨outcome, reach'⟩ := others
      cases outcome with
      | failure pos committed =>
        exact results_pure ⟨Nat.le_trans hlow hothers.1, hothers.2⟩
      | success values last =>
        exact results_pure (hothers.after hreach hlow)
  | lookahead p ih =>
    refine results_bind fun reply hreply => ?_
    have hlocated := ih hp hc hle hcall reply hreply
    split
    · exact results_pure (Reply.located_succeed hc hle _)
    · exact results_pure hlocated
  | notFollowedBy p name ih =>
    refine results_bind fun reply hreply => ?_
    split
    · exact results_pure (Reply.located_miss hle _)
    · exact results_pure (Reply.located_succeed hc hle ())
  | label p name ih =>
    refine results_bind fun reply hreply => ?_
    have hlocated := ih hp hc hle hcall reply hreply
    split
    · split
      · exact results_pure (Reply.located_miss hle name)
      · exact results_pure hlocated
    · exact results_pure hlocated
  | commit p message ih =>
    refine results_bind fun reply hreply => ?_
    have hlocated := ih hp hc hle hcall reply hreply
    obtain ⟨outcome, reach⟩ := reply
    split
    next heq =>
      cases heq
      exact results_pure hlocated
    next => exact results_pure hlocated
  | probe mark p ih => exact ih hp hc hle hcall
  | call r => exact hcall r (List.mem_singleton_self r) c hc hle

theorem eval_located (p : Parser S α) (hp : G.Throughout (·.filled = true) p) (hc : c.On text)
    (hle : c.pos ≤ text.length) :
    Results α ((G.plain rounds depth).run p c) (Reply.Located text c.pos) := by
  induction depth generalizing α p c with
  | zero => exact run_located p hp.1 hc hle fun _ _ _ _ _ _ h => nomatch h
  | succ depth ih =>
    refine run_located p hp.1 hc hle fun r hr c' hc' hle' => ?_
    exact ih (G.body r) (hp.body hr) hc' hle'

variable [DecidableEq S.Rule] [Hashable S.Rule]

theorem session_located (hp : G.Throughout (·.filled = true) p) (hc : c.On text)
    (hle : c.pos ≤ text.length) (h : G.session rounds depth p c {} = some (reply, memory)) :
    reply.Located text c.pos := by
  obtain ⟨-, least, hleast⟩ := eval_of_session hc faithful_empty h
  exact eval_located p hp hc hle reply (hleast least (Nat.le_refl _))

end Grammar
end AgentLang.Parse
