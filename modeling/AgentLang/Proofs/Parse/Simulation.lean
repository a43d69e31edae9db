import AgentLang.Proofs.Parse.Position

/-!
# Engines that agree

The interpreter only combines what an engine does by sequencing. Whatever relates the calls of two
engines, and is kept by sequencing, therefore relates all runs of the two engines. This is the one
induction over parsers that comparisons of engines need.
-/

namespace AgentLang.Parse

variable {S : Signature} {m n : Type → Type} [Monad m] [Monad n] {α β : Type}

/-- The marks that a parser leaves by itself, without those of the rules that it calls. -/
def Parser.marks : {α : Type} → Parser S α → List String
  | _, .map _ p => p.marks
  | _, .seq p q => p.marks ++ q.marks
  | _, .alt p q => p.marks ++ q.marks
  | _, .optional p => p.marks
  | _, .many p => p.marks
  | _, .many1 p => p.marks
  | _, .sepBy p separator => p.marks ++ separator.marks
  | _, .lookahead p => p.marks
  | _, .notFollowedBy p _ => p.marks
  | _, .label p _ => p.marks
  | _, .commit p _ => p.marks
  | _, .probe mark p => mark :: p.marks
  | _, _ => []

/-- A kind of cursors that reading does not leave. -/
structure Cursor.Steady (P : Cursor → Prop) : Prop where
  literal : ∀ {c literal}, P c → c.startsWith literal = true → P (c.advance literal.length)
  token : ∀ {c} {shape : Pattern} {taken}, P c → shape.match? c.rest = some taken →
    P (c.clamp.advance taken)

theorem Cursor.steady_true : Cursor.Steady fun _ => True := ⟨fun _ _ => trivial, fun _ _ => trivial⟩

theorem Cursor.steady_on (text : List Char) : Cursor.Steady (Cursor.On text) where
  literal hc h := (Engine.leads_literal hc h).1.on
  token {c shape taken} hc h := by
    have hends := Engine.matchToken_ends hc shape ""
    simp only [Engine.matchToken, h] at hends
    exact (Reply.ends_succeed.mp hends).1.on

namespace Cursor

variable {P : Cursor → Prop}

theorem Steady.matchText (h : Steady P) (hc : P c) (literal : List Char) (name : String) :
    (Engine.matchText literal name c).Ends P := by
  unfold Engine.matchText
  split
  next heq => exact Reply.ends_succeed.mpr (h.literal hc heq)
  next => exact Reply.ends_miss

theorem Steady.matchKeyword (h : Steady P) (hc : P c) (word : List Char) (name : String) :
    (Engine.matchKeyword word name c).Ends P := by
  unfold Engine.matchKeyword
  split
  next heq => exact Reply.ends_succeed.mpr (h.literal hc (Bool.and_eq_true _ _ ▸ heq).1)
  next => exact Reply.ends_miss

theorem Steady.matchToken (h : Steady P) (hc : P c) (shape : Pattern) (name : String) :
    (Engine.matchToken shape name c).Ends P := by
  unfold Engine.matchToken
  split
  next heq => exact Reply.ends_succeed.mpr (h.token hc heq)
  next => exact Reply.ends_miss

theorem Steady.matchEnd (_ : Steady P) (hc : P c) : (Engine.matchEnd c).Ends P := by
  unfold Engine.matchEnd
  split
  · exact Reply.ends_succeed.mpr hc
  · exact Reply.ends_miss

end Cursor

open Reply (ends_after ends_failure ends_map ends_miss ends_succeed ends_success)

/-- A relation between what two engines do that sequencing keeps and in which their calls are, at
cursors of a kind. The first engine may give up where the second does not. -/
structure Simulation (P : Cursor → Prop) (allowed : String → Prop)
    (Rel : (α : Type) → m (Reply α) → n (Reply α) → Prop) (E : Engine S m) (F : Engine S n) :
    Prop where
  steady : Cursor.Steady P
  pure : ∀ {α : Type} (reply : Reply α), reply.Ends P →
    Rel α (pure reply) (pure reply)
  bind : ∀ {α β : Type} {x : m (Reply α)} {y : n (Reply α)} {f : Reply α → m (Reply β)}
    {g : Reply α → n (Reply β)}, Rel α x y →
    (∀ reply, reply.Ends P → Rel β (f reply) (g reply)) → Rel β (x >>= f) (y >>= g)
  mark : ∀ {α : Type} {x : m (Reply α)} {y : n (Reply α)} {name : String} (pos : Nat),
    allowed name → Rel α x y →
    Rel α (E.mark name pos >>= fun _ => x) (F.mark name pos >>= fun _ => y)
  exhausted : ∀ {α : Type} (y : n (Reply α)), Rel α E.exhausted y
  rounds : E.rounds ≤ F.rounds
  call : ∀ (r : S.Rule) (c : Cursor), P c → Rel (S.Out r) (E.call r c) (F.call r c)

namespace Simulation

variable {P : Cursor → Prop} {allowed : String → Prop}
  {Rel : (α : Type) → m (Reply α) → n (Reply α) → Prop} {E : Engine S m} {F : Engine S n}

theorem andThen (h : Simulation P allowed Rel E F) (hxy : Rel α x y)
    (hfg : ∀ value next, P next → Rel β (f value next) (g value next)) :
    Rel β (Engine.andThen x f) (Engine.andThen y g) := by
  refine h.bind hxy fun reply hreply => ?_
  obtain ⟨outcome, reach⟩ := reply
  cases outcome with
  | failure pos committed => exact h.pure _ ends_failure
  | success value next =>
    refine h.bind (hfg value next (ends_success.mp hreply)) fun other hother => ?_
    exact h.pure _ (ends_after.mpr hother)

theorem repeated (h : Simulation P allowed Rel E F) (hstep : ∀ c, P c → Rel α (step c) (step' c))
    (hk : k ≤ k') (hc : P c) : Rel (List α) (E.repeated step k c) (F.repeated step' k' c) := by
  induction k generalizing k' c with
  | zero => exact h.exhausted _
  | succ k ih =>
    obtain ⟨k', rfl⟩ : ∃ j, k' = j + 1 := ⟨k' - 1, by omega⟩
    refine h.bind (hstep c hc) fun reply hreply => ?_
    obtain ⟨outcome, reach⟩ := reply
    cases outcome with
    | failure pos committed =>
      cases committed with
      | none => exact h.pure _ (ends_success.mpr hc)
      | some message => exact h.pure _ ends_failure
    | success value next =>
      dsimp only
      split
      · exact h.pure _ (ends_success.mpr hc)
      · refine h.bind (ih (by omega) (ends_success.mp hreply)) fun others hothers => ?_
        exact h.pure _ (ends_after.mpr (ends_map.mpr hothers))

/-- Runs of a parser are related like the calls. -/
theorem run (h : Simulation P allowed Rel E F) (p : Parser S α) (hc : P c)
    (hp : ∀ name ∈ p.marks, allowed name) : Rel α (E.run p c) (F.run p c) := by
  induction p generalizing c with
  | text literal name => exact h.pure _ (h.steady.matchText hc literal name)
  | keyword word name => exact h.pure _ (h.steady.matchKeyword hc word name)
  | token shape name => exact h.pure _ (h.steady.matchToken hc shape name)
  | eof => exact h.pure _ (h.steady.matchEnd hc)
  | pure value => exact h.pure _ (ends_succeed.mpr hc)
  | fail => exact h.pure _ ends_failure
  | map f p ih =>
    exact h.bind (ih hc hp) fun reply hreply => h.pure _ (ends_map.mpr hreply)
  | seq p q ihp ihq =>
    simp only [Parser.marks, List.mem_append] at hp
    refine h.andThen (ihp hc fun name hn => hp name (.inl hn)) fun f next hnext => ?_
    refine h.bind (ihq hnext fun name hn => hp name (.inr hn)) fun reply hreply => ?_
    exact h.pure _ (ends_map.mpr hreply)
  | alt p q ihp ihq =>
    simp only [Parser.marks, List.mem_append] at hp
    refine h.bind (ihp hc fun name hn => hp name (.inl hn)) fun reply hreply => ?_
    split
    · refine h.bind (ihq hc fun name hn => hp name (.inr hn)) fun other hother => ?_
      split
      · exact h.pure _ ends_failure
      · exact h.pure _ (ends_after.mpr hother)
    · exact h.pure _ hreply
  | optional p ih =>
    refine h.bind (ih hc hp) fun reply hreply => ?_
    split
    · exact h.pure _ (ends_success.mpr hc)
    · exact h.pure _ (ends_map.mpr hreply)
  | many p ih => exact h.repeated (fun c hc => ih hc hp) h.rounds hc
  | many1 p ih =>
    refine h.bind (h.repeated (fun c hc => ih hc hp) h.rounds hc) fun reply hreply => ?_
    split
    · refine h.bind (ih hc hp) fun first hfirst => ?_
      split
      · exact h.pure _ ends_failure
      · exact h.pure _ hreply
    · exact h.pure _ hreply
  | sepBy p separator ihp ihs =>
    simp only [Parser.marks, List.mem_append] at hp
    have hmarks : ∀ name ∈ p.marks, allowed name := fun name hn => hp name (.inl hn)
    refine h.bind (ihp hc hmarks) fun first hfirst => ?_
    obtain ⟨outcome, reach⟩ := first
    cases outcome with
    | failure pos committed =>
      cases committed with
      | none => exact h.pure _ (ends_success.mpr hc)
      | some message => exact h.pure _ ends_failure
    | success value next =>
      have hnext := ends_success.mp hfirst
      refine h.bind (h.repeated (fun c hc => ?_) h.rounds hnext) fun others hothers => ?_
      · exact h.andThen (ihs hc fun name hn => hp name (.inr hn)) fun _ next hn => ihp hn hmarks
      · obtain ⟨outcome, reach⟩ := others
        cases outcome with
        | failure pos committed => exact h.pure _ ends_failure
        | success values last =>
          exact h.pure _ (ends_success.mpr (ends_success.mp hothers))
  | lookahead p ih =>
    refine h.bind (ih hc hp) fun reply hreply => ?_
    split
    · exact h.pure _ (ends_succeed.mpr hc)
    · exact h.pure _ hreply
  | notFollowedBy p name ih =>
    refine h.bind (ih hc hp) fun reply hreply => ?_
    split
    · exact h.pure _ ends_miss
    · exact h.pure _ (ends_succeed.mpr hc)
  | label p name ih =>
    refine h.bind (ih hc hp) fun reply hreply => ?_
    split
    · split
      · exact h.pure _ ends_miss
      · exact h.pure _ hreply
    · exact h.pure _ hreply
  | commit p message ih =>
    refine h.bind (ih hc hp) fun reply hreply => ?_
    split
    · exact h.pure _ ends_failure
    · exact h.pure _ hreply
  | probe mark p ih =>
    simp only [Parser.marks, List.forall_mem_cons] at hp
    exact h.mark c.pos hp.1 (ih hc hp.2)
  | call r => exact h.call r c hc

end Simulation

/-! ### A parser behind another one -/

namespace Engine

variable [LawfulMonad m] {E : Engine S m}

theorem andThen_map (x : m (Reply α)) (f : α → β) (next : β → Cursor → m (Reply γ)) :
    andThen (do return (← x).map f) next = andThen x fun value => next (f value) := by
  simp only [andThen, bind_assoc, pure_bind]
  refine bind_congr fun reply => ?_
  obtain ⟨outcome, reach⟩ := reply
  cases outcome <;> rfl

theorem run_right (p : Parser S α) (q : Parser S β) (c : Cursor) :
    E.run (p *> q) c = andThen (E.run p c) fun _ => E.run q := by
  refine (andThen_map (E.run p c) (Function.const α id) _).trans ?_
  refine congrArg (andThen (E.run p c)) (funext fun _ => funext fun next => ?_)
  have hmap : ∀ reply : Reply β, reply.map id = reply := by rintro ⟨_ | _, reach⟩ <;> rfl
  simp only [Function.const_apply, hmap, bind_pure]

end Engine
end AgentLang.Parse
