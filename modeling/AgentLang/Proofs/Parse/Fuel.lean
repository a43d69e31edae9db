import AgentLang.Proofs.Parse.Simulation

/-!
# Budgets

The budgets for nested calls and for rounds only decide whether a run has a reply, never which one.
So it makes sense to speak of the reply of a run that terminates.
-/

namespace AgentLang.Parse.Grammar

variable {S : Signature} {α : Type} {G : Grammar S} {rounds rounds' depth depth' : Nat}

/-- The engine behind plain replies. -/
abbrev plain (G : Grammar S) (rounds depth : Nat) : Engine S Option :=
  ⟨G.evalRule rounds depth, fun _ _ => some (), none, rounds⟩

theorem evalRule_succ (r : S.Rule) (c : Cursor) :
    G.evalRule rounds (depth + 1) r c = (G.plain rounds depth).run (G.body r) c := rfl

/-- A reply, ending at a cursor of a kind, is also the reply of the other run. -/
def Kept (P : Cursor → Prop) (α : Type) (x y : Option (Reply α)) : Prop :=
  ∀ reply, x = some reply → reply.Ends P ∧ y = some reply

theorem kept_bind (hxy : Kept P α x y) (hfg : ∀ reply, reply.Ends P → Kept P β (f reply) (g reply)) :
    Kept P β (x >>= f) (y >>= g) := by
  intro reply h
  obtain ⟨first, hx, hf⟩ := Option.bind_eq_some_iff.mp h
  obtain ⟨hends, rfl⟩ := hxy first hx
  exact hfg first hends reply hf

theorem plain_simulation (hP : Cursor.Steady P) (hr : rounds ≤ rounds')
    (hcall : ∀ r c, P c → Kept P _ (G.evalRule rounds depth r c) (G.evalRule rounds' depth' r c)) :
    Simulation P (fun _ => True) (Kept P) (G.plain rounds depth) (G.plain rounds' depth') where
  steady := hP
  pure reply hends reply' h := by
    cases h
    exact ⟨hends, rfl⟩
  bind := kept_bind
  mark _ _ h := h
  exhausted _ _ h := nomatch h
  rounds := hr
  call := hcall

theorem evalRule_kept (hP : Cursor.Steady P) (hr : rounds ≤ rounds') (hd : depth ≤ depth')
    (r : S.Rule) (c : Cursor) (hc : P c) :
    Kept P _ (G.evalRule rounds depth r c) (G.evalRule rounds' depth' r c) := by
  induction depth generalizing depth' r c with
  | zero => exact fun _ h => nomatch h
  | succ depth ih =>
    obtain ⟨depth', rfl⟩ : ∃ d, depth' = d + 1 := ⟨depth' - 1, by omega⟩
    have hd' : depth ≤ depth' := Nat.le_of_succ_le_succ hd
    have hsim := plain_simulation hP hr fun r c hc => ih hd' r c hc
    exact hsim.run (G.body r) hc fun _ _ => trivial

theorem evalRule_mono (hr : rounds ≤ rounds') (hd : depth ≤ depth')
    (h : G.evalRule rounds depth r c = some reply) : G.evalRule rounds' depth' r c = some reply :=
  (evalRule_kept Cursor.steady_true hr hd r c trivial reply h).2

theorem evalRule_ne_none_mono (hd : depth ≤ depth') (h : G.evalRule rounds depth r c ≠ none) :
    G.evalRule rounds depth' r c ≠ none := by
  obtain ⟨reply, hreply⟩ := Option.ne_none_iff_exists'.mp h
  rw [evalRule_mono (Nat.le_refl _) hd hreply]
  exact Option.some_ne_none reply

theorem evalRule_unique (h : G.evalRule rounds depth r c = some reply)
    (h' : G.evalRule rounds depth' r c = some reply') : reply = reply' := by
  rcases Nat.le_total depth depth' with hd | hd
  · exact Option.some.inj ((evalRule_mono (Nat.le_refl _) hd h).symm.trans h')
  · exact Option.some.inj (h.symm.trans (evalRule_mono (Nat.le_refl _) hd h'))

/-- At the least depth at which a rule has a reply, what its body calls needs less. -/
theorem evalRule_least (h : G.evalRule rounds depth r c = some reply) :
    ∃ least < depth, G.evalRule rounds least r c = none ∧
      (G.plain rounds least).run (G.body r) c = some reply := by
  induction depth with
  | zero => exact nomatch h
  | succ depth ih =>
    cases hless : G.evalRule rounds depth r c with
    | none => exact ⟨depth, Nat.lt_succ_self depth, hless, h⟩
    | some reply' =>
      obtain rfl : reply' = reply := evalRule_unique hless h
      obtain ⟨least, hlt, hnone, hsome⟩ := ih hless
      exact ⟨least, Nat.lt_succ_of_lt hlt, hnone, hsome⟩

theorem eval_mono (hr : rounds ≤ rounds') (hd : depth ≤ depth')
    (h : G.eval rounds depth p c = some reply) : G.eval rounds' depth' p c = some reply := by
  have hsim := plain_simulation (G := G) Cursor.steady_true hr
    fun r c hc => evalRule_kept Cursor.steady_true hr hd r c hc
  exact (hsim.run p trivial (fun _ _ => trivial) reply h).2

theorem evalRule_ends (hc : c.On text) (h : G.evalRule rounds depth r c = some reply) :
    reply.Ends (·.On text) :=
  (evalRule_kept (Cursor.steady_on text) (Nat.le_refl _) (Nat.le_refl _) r c hc reply h).1

/-- The engine of plain replies with the depth left open. -/
abbrev unbounded (G : Grammar S) (rounds : Nat) : Engine S (ReaderT Nat Option) :=
  ⟨fun r c depth => G.evalRule rounds depth r c, fun _ _ => pure (), fun _ => none, rounds⟩

theorem eval_of_unbounded (h : (G.unbounded rounds).run p c depth = some reply) :
    G.eval rounds depth p c = some reply := by
  have hsim : Simulation (fun _ => True) (fun _ => True)
      (fun α (x : ReaderT Nat Option (Reply α)) (y : Option (Reply α)) =>
        ∀ reply, x depth = some reply → y = some reply)
      (G.unbounded rounds) (G.plain rounds depth) :=
    { steady := Cursor.steady_true
      pure := fun _ _ _ h => h
      bind := fun hxy hfg reply h => by
        obtain ⟨first, hx, hf⟩ := Option.bind_eq_some_iff.mp h
        exact Option.bind_eq_some_iff.mpr
          ⟨first, hxy first hx, hfg first (fun _ _ _ => trivial) reply hf⟩
      mark := fun _ _ h => h
      exhausted := fun _ _ h => nomatch h
      rounds := Nat.le_refl _
      call := fun _ _ _ _ h => h }
  exact hsim.run p trivial (fun _ _ => trivial) reply h

/-! ### Grammars with the same plain replies -/

theorem evalRule_congr {G' : Grammar S}
    (h : ∀ rounds depth r c,
      (G.plain rounds depth).run (G'.body r) c = (G.plain rounds depth).run (G.body r) c)
    (rounds depth : Nat) : G'.evalRule rounds depth = G.evalRule rounds depth := by
  induction depth with
  | zero => rfl
  | succ depth ih =>
    funext r c
    rw [evalRule_succ, evalRule_succ, plain, ih]
    exact h rounds depth r c

theorem eval_congr {G' : Grammar S}
    (h : ∀ rounds depth r c,
      (G.plain rounds depth).run (G'.body r) c = (G.plain rounds depth).run (G.body r) c)
    (p : Parser S α) (c : Cursor) : G'.eval rounds depth p c = G.eval rounds depth p c := by
  rw [eval, eval, evalRule_congr h]

theorem eval_forgetful (p : Parser S α) (c : Cursor) :
    G.forgetful.eval rounds depth p c = G.eval rounds depth p c := by
  have hbody : ∀ rounds depth r c, (G.plain rounds depth).run (G.forgetful.body r) c =
      (G.plain rounds depth).run (G.body r) c := fun _ _ _ _ => rfl
  exact eval_congr hbody p c

/-! ### Watched rules -/

/-- The bodies of the watched rules leave a mark of their own when they are started, which nothing
else leaves. -/
structure Watching (G : Grammar S) (watched : S.Rule → String → Prop) : Prop where
  memoised : ∀ {r mark}, watched r mark → G.memoised r = true
  probed : ∀ {r mark}, watched r mark →
    ∃ q, G.body r = .probe mark q ∧ ∀ name ∈ q.marks, ∀ r', ¬watched r' name
  silent : ∀ {r}, (∀ mark, ¬watched r mark) → ∀ name ∈ (G.body r).marks, ∀ r', ¬watched r' name
  own : ∀ {r r' mark}, watched r mark → watched r' mark → r = r'

theorem watching_nothing (G : Grammar S) : Watching G fun _ _ => False :=
  ⟨False.elim, False.elim, fun _ _ _ _ => id, False.elim⟩

variable [DecidableEq S.Rule]

/-- The grammar that also leaves a mark whenever the body of a rule is started. -/
def watch (G : Grammar S) (r : S.Rule) (mark : String) : Grammar S where
  body r' := if r' = r then .probe mark (G.body r') else G.body r'
  memoised := G.memoised

theorem watch_body_self (G : Grammar S) (r : S.Rule) (mark : String) :
    (G.watch r mark).body r = .probe mark (G.body r) := if_pos rfl

theorem watch_body_ne (G : Grammar S) (mark : String) (h : r' ≠ r) :
    (G.watch r mark).body r' = G.body r' := if_neg h

theorem eval_watch (r : S.Rule) (mark : String) (p : Parser S α) (c : Cursor) :
    (G.watch r mark).eval rounds depth p c = G.eval rounds depth p c := by
  refine eval_congr (fun rounds depth r' c => ?_) p c
  by_cases h : r' = r
  · subst h
    rw [watch_body_self]
    rfl
  · rw [watch_body_ne G mark h]

theorem watching_watch (hmemo : G.memoised r = true) (hG : ∀ r', mark ∉ (G.body r').marks) :
    Watching (G.watch r mark) fun r' name => r' = r ∧ name = mark where
  memoised := by
    rintro r' name ⟨rfl, rfl⟩
    exact hmemo
  probed := by
    rintro r' name ⟨rfl, rfl⟩
    refine ⟨G.body r', watch_body_self G r' name, fun name' hname r'' h => ?_⟩
    exact hG r' (h.2 ▸ hname)
  silent := by
    intro r' hr' name hname r'' h
    have hne : r' ≠ r := fun heq => hr' mark ⟨heq, rfl⟩
    rw [watch_body_ne G mark hne, h.2] at hname
    exact hG r' hname
  own := by
    rintro r' r'' name ⟨rfl, -⟩ ⟨rfl, -⟩
    rfl

end AgentLang.Parse.Grammar
