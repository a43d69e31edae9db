import AgentLang.Proofs.Parse.Memoisation
import AgentLang.Proofs.Parse.Progress

/-!
# Values of parsers

What a parser can yield is read off from the parser, once it is known what the rules can yield. A
property of the values of the rules that the bodies of the rules keep therefore holds of everything
that a session yields.
-/

namespace AgentLang.Parse

variable {S : Signature} {α β : Type}

/-- The values that a parser may yield, given those of the rules and the rules that may match
nothing. -/
def Parser.Yields (empty : S.Rule → Bool) (Q : (r : S.Rule) → S.Out r → Prop) :
    {α : Type} → Parser S α → α → Prop
  | _, .text literal _, value => value = String.ofList literal
  | _, .keyword word _, value => value = String.ofList word
  | _, .token shape _, value => shape.Accepts value.toList
  | _, .eof, _ => True
  | _, .pure result, value => value = result
  | _, .fail, _ => False
  | _, .map f p, value => ∃ a, p.Yields empty Q a ∧ f a = value
  | _, .seq p q, value => ∃ f, p.Yields empty Q f ∧ ∃ a, q.Yields empty Q a ∧ f a = value
  | _, .alt p q, value => p.Yields empty Q value ∨ q.Yields empty Q value
  | _, .optional p, value => ∀ a, value = some a → p.Yields empty Q a
  | _, .many p, values => ∀ a ∈ values, p.Yields empty Q a
  | _, .many1 p, values =>
    (p.nullable empty = false → values ≠ []) ∧ ∀ a ∈ values, p.Yields empty Q a
  | _, .sepBy p _, values => ∀ a ∈ values, p.Yields empty Q a
  | _, .lookahead p, value => p.Yields empty Q value
  | _, .notFollowedBy _ _, _ => True
  | _, .label p _, value => p.Yields empty Q value
  | _, .commit p _, value => p.Yields empty Q value
  | _, .probe _ p, value => p.Yields empty Q value
  | _, .call r, value => Q r value

namespace Parser

variable {empty : S.Rule → Bool} {Q : (r : S.Rule) → S.Out r → Prop}

/-- Everything that a parser may yield has a property. -/
def Ensures (empty : S.Rule → Bool) (Q : (r : S.Rule) → S.Out r → Prop) (p : Parser S α)
    (P : α → Prop) : Prop :=
  ∀ value, p.Yields empty Q value → P value

namespace Ensures

variable {P A : α → Prop}

theorem any (p : Parser S α) : p.Ensures empty Q fun _ => True := fun _ _ => trivial

theorem mono {p : Parser S α} (h : p.Ensures empty Q A) (hAP : ∀ a, A a → P a) :
    p.Ensures empty Q P :=
  fun value hvalue => hAP value (h value hvalue)

theorem word {text : String} {P : String → Prop} (h : P text) :
    (Parser.word text : Parser S String).Ensures empty Q P := by
  intro value hvalue
  rw [Parser.word, Yields, String.ofList_toList] at hvalue
  exact hvalue ▸ h

theorem token (shape : Pattern) (name : String) :
    (Parser.token shape name : Parser S String).Ensures empty Q (shape.Accepts ·.toList) :=
  fun _ hvalue => hvalue

theorem map {f : β → α} {p : Parser S β} {B : β → Prop} (hp : p.Ensures empty Q B)
    (hf : ∀ b, B b → P (f b)) : (f <$> p).Ensures empty Q P := by
  rintro value ⟨b, hb, rfl⟩
  exact hf b (hp b hb)

theorem seq {p : Parser S (β → α)} {q : Parser S β} {B : β → Prop}
    (hp : p.Ensures empty Q fun f => ∀ b, B b → P (f b)) (hq : q.Ensures empty Q B) :
    (p <*> q).Ensures empty Q P := by
  rintro value ⟨f, hf, b, hb, rfl⟩
  exact hp f hf b (hq b hb)

theorem left {p : Parser S α} {q : Parser S β} (hp : p.Ensures empty Q P) :
    (p <* q).Ensures empty Q P := by
  rintro value ⟨f, ⟨a, ha, rfl⟩, b, -, rfl⟩
  exact hp a ha

theorem right {p : Parser S β} {q : Parser S α} (hq : q.Ensures empty Q P) :
    (p *> q).Ensures empty Q P := by
  rintro value ⟨f, ⟨b, -, rfl⟩, a, ha, rfl⟩
  exact hq a ha

theorem choice (h : alternatives.Forall fun p => p.Ensures empty Q P) :
    (Parser.choice alternatives).Ensures empty Q P := by
  induction alternatives with
  | nil => exact fun _ hvalue => hvalue.elim
  | cons p others ih =>
    rw [List.forall_cons] at h
    rintro value (hvalue | hvalue)
    · exact h.1 value hvalue
    · exact ih h.2 value hvalue

theorem optional (hp : p.Ensures empty Q P) :
    (Parser.optional p).Ensures empty Q fun value => ∀ a ∈ value, P a :=
  fun _ hvalue a ha => hp a (hvalue a ha)

theorem many (hp : p.Ensures empty Q P) :
    (Parser.many p).Ensures empty Q fun values => ∀ a ∈ values, P a :=
  fun _ hvalues a ha => hp a (hvalues a ha)

theorem many1 (hn : p.nullable empty = false) (hp : p.Ensures empty Q P) :
    (Parser.many1 p).Ensures empty Q fun values => values ≠ [] ∧ ∀ a ∈ values, P a :=
  fun _ hvalues => ⟨hvalues.1 hn, fun a ha => hp a (hvalues.2 a ha)⟩

theorem sepBy (hp : p.Ensures empty Q P) :
    (Parser.sepBy p separator).Ensures empty Q fun values => ∀ a ∈ values, P a :=
  fun _ hvalues a ha => hp a (hvalues a ha)

theorem commit (hp : p.Ensures empty Q P) :
    (Parser.commit p message).Ensures empty Q P := hp

end Ensures

end Parser

namespace Reply

variable {P R : α → Prop}

/-- A success of the reply gives a value of a kind. -/
def Gives (reply : Reply α) (P : α → Prop) : Prop :=
  ∀ value next, reply.outcome = .success value next → P value

theorem gives_success {reach : Reach} :
    (⟨.success value next, reach⟩ : Reply α).Gives P ↔ P value := by
  simp [Gives]

theorem gives_failure {reach : Reach} : (⟨.failure pos committed, reach⟩ : Reply α).Gives P := by
  simp [Gives]

theorem gives_succeed : (succeed value next).Gives P ↔ P value :=
  gives_success

theorem gives_miss : (miss pos name : Reply α).Gives P :=
  gives_failure

theorem gives_map {reply : Reply α} {f : α → β} {P : β → Prop} :
    (reply.map f).Gives P ↔ reply.Gives fun a => P (f a) := by
  obtain ⟨outcome, reach⟩ := reply
  cases outcome <;> simp [map, Outcome.map, Gives]

theorem gives_after {reply : Reply α} :
    (reply.after earlier).Gives P ↔ reply.Gives P := Iff.rfl

theorem Gives.mono {reply : Reply α} (h : reply.Gives P) (hPR : ∀ a, P a → R a) : reply.Gives R :=
  fun value next heq => hPR value (h value next heq)

end Reply

/-! ### Replies of plain runs -/

/-- Every reply of a plain run is of a kind. -/
def Results (α : Type) (x : Option (Reply α)) (post : Reply α → Prop) : Prop :=
  ∀ reply, x = some reply → post reply

theorem results_pure (h : post reply) : Results α (pure reply) post := by
  intro reply' heq
  cases heq
  exact h

theorem results_bind (h : ∀ reply, x = some reply → Results β (f reply) post) :
    Results β (x >>= f) post := by
  intro reply heq
  obtain ⟨first, hfirst, hreply⟩ := Option.bind_eq_some_iff.mp heq
  exact h first hfirst reply hreply

namespace Grammar

open Reply (ends_success gives_after gives_failure gives_map gives_miss gives_succeed gives_success)

variable {G : Grammar S} {rounds depth : Nat} {text : List Char} {empty : S.Rule → Bool}
  {Q : (r : S.Rule) → S.Out r → Prop}

theorem results_logic : (G.plain rounds depth).Logic Results where
  pure _ h := results_pure h
  mono hx hpost reply heq := hpost reply (hx reply heq)
  bind hx hf := results_bind fun reply heq => hf reply (hx reply heq)
  mark _ _ hx := hx

/-! ### Values of plain runs -/

theorem andThen_gives {x : Option (Reply α)} {f : α → Cursor → Option (Reply β)} {P : β → Prop}
    (h : ∀ value next reach, x = some ⟨.success value next, reach⟩ →
      Results β (f value next) (Reply.Gives · P)) :
    Results β (Engine.andThen x f) (Reply.Gives · P) := by
  refine results_bind fun reply hreply => ?_
  obtain ⟨outcome, reach⟩ := reply
  cases outcome with
  | failure pos committed => exact results_pure gives_failure
  | success value next =>
    refine results_bind fun other hother => results_pure (gives_after.mpr ?_)
    exact h value next reach hreply other hother

theorem repeated_gives {E : Engine S Option} (hexhausted : ∀ α, E.exhausted (α := α) = none)
    {step : Cursor → Option (Reply α)} {P : α → Prop}
    (hstep : ∀ c, c.On text → Results α (step c) fun reply => reply.Gives P ∧
      reply.Ends (Cursor.On text))
    (hc : c.On text) :
    Results (List α) (E.repeated step k c) (Reply.Gives · fun values => ∀ a ∈ values, P a) := by
  induction k generalizing c with
  | zero => exact fun _ h => nomatch (hexhausted _).symm.trans h
  | succ k ih =>
    refine results_bind fun reply hreply => ?_
    have hfirst := hstep c hc reply hreply
    obtain ⟨outcome, reach⟩ := reply
    cases outcome with
    | failure pos committed =>
      cases committed with
      | none => exact results_pure (gives_success.mpr fun _ h => nomatch h)
      | some message => exact results_pure gives_failure
    | success value next =>
      dsimp only
      split
      · exact results_pure (gives_success.mpr fun _ h => nomatch h)
      · refine results_bind fun others hothers => results_pure ?_
        refine gives_after.mpr (gives_map.mpr ?_)
        refine (ih (ends_success.mp hfirst.2) others hothers).mono fun values hvalues => ?_
        exact List.forall_mem_cons.mpr ⟨gives_success.mp hfirst.1, hvalues⟩

theorem repeated_nil {E : Engine S Option} (hexhausted : ∀ α, E.exhausted (α := α) = none)
    {step : Cursor → Option (Reply α)} (h : E.repeated step k c = some ⟨.success [] next, reach⟩) :
    ∃ reply, step c = some reply ∧ reply.Ends fun last => last.pos = c.pos := by
  cases k with
  | zero => exact nomatch (hexhausted _).symm.trans h
  | succ k =>
    obtain ⟨reply, hreply, hrest⟩ := Option.bind_eq_some_iff.mp h
    refine ⟨reply, hreply, ?_⟩
    obtain ⟨outcome, reach⟩ := reply
    cases outcome with
    | failure pos committed => exact Reply.ends_failure
    | success value last =>
      dsimp only at hrest
      split at hrest
      next heq => exact ends_success.mpr heq
      next =>
        obtain ⟨others, -, hothers⟩ := Option.bind_eq_some_iff.mp hrest
        obtain ⟨outcome, reach⟩ := others
        cases outcome <;> cases hothers

variable (hempty : ∀ r, empty r = false → (G.body r).nullable empty = false)
include hempty

theorem evalRule_proceeds (hr : text.length + 2 ≤ rounds) (r : S.Rule) (c : Cursor)
    (hc : c.On text) :
    Results _ (G.evalRule rounds depth r c) (Reply.Proceeds text (empty r) c) := by
  induction depth generalizing r c with
  | zero => exact fun _ h => nomatch h
  | succ depth ih =>
    have hbody := results_logic.run_proceeds hr (G.body r) hc fun r' c' hc' _ => ih r' c' hc'
    exact fun reply heq => (hbody reply heq).mono (hempty r)

theorem eval_proceeds (hr : text.length + 2 ≤ rounds) (p : Parser S α) (hc : c.On text) :
    Results _ ((G.plain rounds depth).run p c) (Reply.Proceeds text (p.nullable empty) c) :=
  results_logic.run_proceeds hr p hc fun r' c' hc' _ => evalRule_proceeds hempty hr r' c' hc'

/-- A plain run yields what its parser may yield, where the rules it calls do. -/
theorem run_yields (hr : text.length + 2 ≤ rounds)
    (hcall : ∀ r c, c.On text → Results _ (G.evalRule rounds depth r c) (Reply.Gives · (Q r)))
    (p : Parser S α) (hc : c.On text) :
    Results α ((G.plain rounds depth).run p c) (Reply.Gives · (p.Yields empty Q)) := by
  have hends : ∀ {β : Type} (p : Parser S β) {c : Cursor}, c.On text →
      Results β ((G.plain rounds depth).run p c) (Reply.Ends · (Cursor.On text)) :=
    fun p c hc reply heq => (eval_proceeds hempty hr p hc reply heq).leads.mono fun _ h => h.on
  induction p generalizing c with
  | text literal name =>
    refine results_pure ?_
    unfold Engine.matchText
    split
    · exact gives_succeed.mpr rfl
    · exact gives_miss
  | keyword word name =>
    refine results_pure ?_
    unfold Engine.matchKeyword
    split
    · exact gives_succeed.mpr rfl
    · exact gives_miss
  | token shape name =>
    refine results_pure ?_
    unfold Engine.matchToken
    split
    next taken heq =>
      refine gives_succeed.mpr ?_
      rw [Parser.Yields, String.toList_ofList]
      exact (Pattern.match?_accepts heq).2
    next => exact gives_miss
  | eof => exact results_pure fun _ _ _ => trivial
  | pure value => exact results_pure (gives_succeed.mpr rfl)
  | fail => exact results_pure gives_failure
  | map f p ih =>
    refine results_bind fun reply hreply => results_pure (gives_map.mpr ?_)
    exact (ih hc reply hreply).mono fun a ha => ⟨a, ha, rfl⟩
  | seq p q ihp ihq =>
    refine andThen_gives fun f next reach hfirst => ?_
    have hf := gives_success.mp (ihp hc _ hfirst)
    have hnext := ends_success.mp (hends p hc _ hfirst)
    refine results_bind fun reply hreply => results_pure (gives_map.mpr ?_)
    exact (ihq hnext reply hreply).mono fun a ha => ⟨f, hf, a, ha, rfl⟩
  | alt p q ihp ihq =>
    refine results_bind fun reply hreply => ?_
    split
    · refine results_bind fun other hother => ?_
      split
      · exact results_pure gives_failure
      · exact results_pure (gives_after.mpr ((ihq hc other hother).mono fun _ => .inr))
    · exact results_pure ((ihp hc reply hreply).mono fun _ => .inl)
  | optional p ih =>
    refine results_bind fun reply hreply => ?_
    split
    · exact results_pure (gives_success.mpr fun _ h => nomatch h)
    · refine results_pure (gives_map.mpr ((ih hc reply hreply).mono fun a ha b hb => ?_))
      cases hb
      exact ha
  | many p ih =>
    exact repeated_gives (fun _ => rfl)
      (fun c hc reply heq => ⟨ih hc reply heq, hends p hc reply heq⟩) hc
  | many1 p ih =>
    refine results_bind fun reply hreply => ?_
    have hmembers : reply.Gives fun values => ∀ a ∈ values, p.Yields empty Q a :=
      repeated_gives (fun _ => rfl)
        (fun c hc reply heq => ⟨ih hc reply heq, hends p hc reply heq⟩) hc reply hreply
    split
    next next hnil =>
      refine results_bind fun first hfirst => ?_
      split
      · exact results_pure gives_failure
      next value last hvalue =>
        -- The step that ended the repetition at once is the one that succeeded here.
        have hstep : ∃ reply, (G.plain rounds depth).run p c = some reply ∧
            reply.Ends fun last => last.pos = c.pos := by
          obtain ⟨outcome, reach⟩ := reply
          cases hnil
          exact repeated_nil (fun _ => rfl) hreply
        obtain ⟨same, hsame, hstays⟩ := hstep
        obtain rfl : first = same := Option.some.inj (hfirst.symm.trans hsame)
        have hforward := eval_proceeds hempty hr p hc first hfirst value last hvalue
        refine results_pure fun values next' heq => ⟨fun hn => ?_, hmembers values next' heq⟩
        have := hforward.2 hn
        have := hstays value last hvalue
        omega
    next hcons =>
      refine results_pure fun values next heq => ⟨fun _ hnil => ?_, hmembers values next heq⟩
      exact hcons next (hnil ▸ heq)
  | sepBy p separator ihp ihs =>
    refine results_bind fun first hfirst => ?_
    have hvalue := ihp hc first hfirst
    have hnext := hends p hc first hfirst
    obtain ⟨outcome, reach⟩ := first
    cases outcome with
    | failure pos committed =>
      cases committed with
      | none => exact results_pure (gives_success.mpr fun _ h => nomatch h)
      | some message => exact results_pure gives_failure
    | success value next =>
      have hstep : ∀ c, c.On text → Results _
          (Engine.andThen ((G.plain rounds depth).run separator c)
            fun _ => (G.plain rounds depth).run p)
          fun reply => reply.Gives (p.Yields empty Q) ∧ reply.Ends (Cursor.On text) := by
        intro c hc reply heq
        have hlogic : (G.plain rounds depth).Logic Results := results_logic
        have hlead := hlogic.andThen_proceeds (eval_proceeds hempty hr separator hc)
          (fun _ last hlast => eval_proceeds hempty hr p hlast.1.on) reply heq
        refine ⟨?_, hlead.leads.mono fun _ h => h.on⟩
        exact andThen_gives (fun _ last _ hsep =>
          ihp (ends_success.mp (hends separator hc _ hsep))) reply heq
      refine results_bind fun others hothers => ?_
      have hmembers :=
        repeated_gives (fun _ => rfl) hstep (ends_success.mp hnext) others hothers
      obtain ⟨outcome, reach⟩ := others
      cases outcome with
      | failure pos committed => exact results_pure gives_failure
      | success values last =>
        refine results_pure (gives_success.mpr (List.forall_mem_cons.mpr ?_))
        exact ⟨gives_success.mp hvalue, gives_success.mp hmembers⟩
  | lookahead p ih =>
    refine results_bind fun reply hreply => ?_
    have hgives := ih hc reply hreply
    split
    next value next heq => exact results_pure (gives_succeed.mpr (hgives value next heq))
    next => exact results_pure hgives
  | notFollowedBy p name ih =>
    refine results_bind fun reply hreply => ?_
    split
    · exact results_pure gives_miss
    · exact results_pure fun _ _ _ => trivial
  | label p name ih =>
    refine results_bind fun reply hreply => ?_
    split
    · split
      · exact results_pure gives_miss
      · exact results_pure (ih hc reply hreply)
    · exact results_pure (ih hc reply hreply)
  | commit p message ih =>
    refine results_bind fun reply hreply => ?_
    split
    · exact results_pure gives_failure
    · exact results_pure (ih hc reply hreply)
  | probe mark p ih => exact ih hc
  | call r => exact hcall r c hc

/-- What the bodies of the rules keep holds of all values of the rules. -/
theorem evalRule_yields (hQ : ∀ r value, (G.body r).Yields empty Q value → Q r value)
    (hr : text.length + 2 ≤ rounds)
    (r : S.Rule) (c : Cursor) (hc : c.On text) :
    Results _ (G.evalRule rounds depth r c) (Reply.Gives · (Q r)) := by
  induction depth generalizing r c with
  | zero => exact fun _ h => nomatch h
  | succ depth ih =>
    intro reply heq
    exact (run_yields hempty hr ih (G.body r) hc reply heq).mono (hQ r)

variable [DecidableEq S.Rule] [Hashable S.Rule]

theorem session_yields (hQ : ∀ r value, (G.body r).Yields empty Q value → Q r value)
    (hr : text.length + 2 ≤ rounds)
    (hc : c.On text) (h : G.session rounds depth p c {} = some (reply, memory)) :
    reply.Gives (p.Yields empty Q) := by
  obtain ⟨-, least, hleast⟩ := eval_of_session hc faithful_empty h
  have hplain := hleast least (Nat.le_refl _)
  exact run_yields hempty hr (fun r c hc => evalRule_yields hempty hQ hr r c hc) p hc reply hplain

end Grammar
end AgentLang.Parse
