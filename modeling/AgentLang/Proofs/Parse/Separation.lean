import AgentLang.Proofs.Parse.Session

/-!
# Lists with separators

A list with separators is an optional item that is followed by pairs of a separator and an item. It
answers as that composition does, but where the first item succeeds and the list fails behind it,
the failures that were met inside of the first item are forgotten.
-/

namespace AgentLang.Parse

/-- A list with separators, composed of simpler parsers. -/
def Parser.separated {S : Signature} {α β : Type} (p : Parser S α) (separator : Parser S β) :
    Parser S (List α) :=
  (·.getD []) <$> .optional (List.cons <$> p <*> .many (separator *> p))

/-- What a list forgets of the failures that were met in its first item. -/
def Reply.forgotten {α β : Type} (first : Reply α) (list : Reply β) : Reach :=
  match first.outcome, list.outcome with
  | .success .., .failure .. => first.reach
  | _, _ => .unseen

namespace Engine

variable {S : Signature} {m : Type → Type} [Monad m] [LawfulMonad m] {E : Engine S m}
  {α β γ : Type} {p : Parser S α} {separator : Parser S β} {c : Cursor}

/-- A repetition fails with commitment only. -/
theorem repeated_bind_congr {step : Cursor → m (Reply α)} {f g : Reply (List α) → m β}
    (hstop : ∀ {α β : Type} (f : α → m β), E.exhausted >>= f = E.exhausted)
    (h : ∀ reply, (∀ pos, reply.outcome ≠ .failure pos none) → f reply = g reply) (k : Nat) :
    E.repeated step k c >>= f = E.repeated step k c >>= g := by
  induction k generalizing c f g with
  | zero => rw [repeated, hstop, hstop]
  | succ k ih =>
    rw [repeated, bind_assoc, bind_assoc]
    refine bind_congr fun reply => ?_
    obtain ⟨⟨value, next⟩ | ⟨pos, _ | message⟩, reach⟩ := reply
    · dsimp only
      split
      · simp only [pure_bind]
        exact h _ fun _ => nofun
      · simp only [bind_assoc, pure_bind]
        refine ih fun others hothers => h _ fun pos hfailure => ?_
        obtain ⟨outcome, reach⟩ := others
        cases outcome with
        | success values last => cases hfailure
        | failure pos committed =>
          cases hfailure
          exact hothers pos rfl
    · simp only [pure_bind]
      exact h _ fun _ => nofun
    · simp only [pure_bind]
      exact h _ fun _ => nofun

/-- How a list with separators goes on behind its first item. -/
def listed (E : Engine S m) (p : Parser S α) (separator : Parser S β) (c : Cursor)
    (first : Reply α) : m (Reply (List α)) := do
  match first.outcome with
  | .failure pos (some message) => return ⟨.failure pos (some message), first.reach⟩
  | .failure _ none => return ⟨.success [] c, first.reach⟩
  | .success value next =>
    let others ← E.repeated (fun c => andThen (E.run separator c) fun _ => E.run p) E.rounds next
    match others.outcome with
    | .failure pos committed => return ⟨.failure pos committed, others.reach⟩
    | .success values last =>
      return ⟨.success (value :: values) last, first.reach.join others.reach⟩

theorem run_separated (hstop : ∀ {α β : Type} (f : α → m β), E.exhausted >>= f = E.exhausted) :
    E.run (.separated p separator) c = E.run p c >>= fun first =>
      (fun list => list.after (first.forgotten list)) <$> E.listed p separator c first := by
  have hpair : E.run (separator *> p) = fun c => andThen (E.run separator c) fun _ => E.run p :=
    funext fun c => run_right separator p c
  have hitems : E.run (List.cons <$> p <*> .many (separator *> p)) c =
      andThen (E.run p c) fun value next => do
        return (← E.repeated (E.run (separator *> p)) E.rounds next).map (value :: ·) :=
    andThen_map (E.run p c) List.cons _
  have hrun : E.run (.separated p separator) c = do
      let items ← E.run (List.cons <$> p <*> .many (separator *> p)) c
      match items.outcome with
      | .failure _ none => return ⟨.success [] c, items.reach⟩
      | .failure _ (some _) => return items
      | .success _ _ => return items := by
    refine (bind_assoc ..).trans (bind_congr fun items => ?_)
    obtain ⟨⟨values, last⟩ | ⟨pos, _ | message⟩, reach⟩ := items <;> exact pure_bind _ _
  rw [hrun, hitems, hpair, andThen, bind_assoc]
  refine bind_congr fun first => ?_
  obtain ⟨⟨value, next⟩ | ⟨pos, _ | message⟩, reach⟩ := first
  · simp only [listed, map_bind, bind_assoc, pure_bind]
    refine repeated_bind_congr hstop (fun others hothers => ?_) E.rounds
    obtain ⟨⟨values, last⟩ | ⟨pos, _ | message⟩, reach'⟩ := others
    · simp only [map_pure]
      rfl
    · exact absurd rfl (hothers pos)
    · simp only [map_pure]
      rfl
  · simp only [listed, pure_bind, map_pure]
    rfl
  · simp only [listed, pure_bind, map_pure]
    rfl

end Engine

namespace Grammar

variable {S : Signature} [DecidableEq S.Rule] [Hashable S.Rule] {α β : Type} {G : Grammar S}
  {rounds depth : Nat} {p : Parser S α} {separator : Parser S β} {c : Cursor} {memory : Memory S}

theorem session_sepBy :
    G.session rounds depth (.sepBy p separator) c memory =
      (G.session rounds depth p c memory).bind fun result =>
        (G.remembering rounds depth).listed p separator c result.1 result.2 := rfl

theorem session_separated :
    G.session rounds depth (.separated p separator) c memory = do
      let (first, _) ← G.session rounds depth p c memory
      let (list, after) ← G.session rounds depth (.sepBy p separator) c memory
      return (list.after (first.forgotten list), after) := by
  have hseparated : G.session rounds depth (.separated p separator) c =
      G.session rounds depth p c >>= fun first =>
        (fun list => list.after (first.forgotten list)) <$>
          (G.remembering rounds depth).listed p separator c first :=
    Engine.run_separated fun _ => rfl
  rw [hseparated, session_sepBy]
  change (G.session rounds depth p c memory).bind _ = (G.session rounds depth p c memory).bind _
  cases G.session rounds depth p c memory with
  | none => rfl
  | some result =>
    change ((G.remembering rounds depth).listed p separator c result.1 result.2).bind _ =
      ((G.remembering rounds depth).listed p separator c result.1 result.2).bind _
    cases (G.remembering rounds depth).listed p separator c result.1 result.2 <;> rfl

/-- A list with separators answers as its composition does, in every field of the reply, but where
its first item succeeds and it fails behind that item. There it forgets the failures of the first
item, so that the replies are equal only if these reach no further than the ones it reports. -/
theorem sepBy_eq_separated_iff (G : Grammar S) (rounds depth : Nat) (p : Parser S α)
    (separator : Parser S β) (text : List Char) (pos : Nat) (memory : Memory S) :
    (G.session rounds depth (.separated p separator) (.ofPos text pos) memory = do
      let (first, _) ← G.session rounds depth p (.ofPos text pos) memory
      let (list, after) ← G.session rounds depth (.sepBy p separator) (.ofPos text pos) memory
      return (list.after (first.forgotten list), after)) ∧
    (G.session rounds depth (.sepBy p separator) (.ofPos text pos) memory =
        G.session rounds depth (.separated p separator) (.ofPos text pos) memory ↔
      ∀ value next reach middle place committed reach' after,
        G.session rounds depth p (.ofPos text pos) memory =
          some (⟨.success value next, reach⟩, middle) →
        G.session rounds depth (.sepBy p separator) (.ofPos text pos) memory =
          some (⟨.failure place committed, reach'⟩, after) →
        reach.join reach' = reach') := by
  refine ⟨session_separated, ?_⟩
  rw [session_separated]
  cases hfirst : G.session rounds depth p (.ofPos text pos) memory with
  | none => simp [session_sepBy, hfirst]
  | some result =>
    obtain ⟨first, middle⟩ := result
    cases hlist : G.session rounds depth (.sepBy p separator) (.ofPos text pos) memory with
    | none => simp
    | some result =>
      obtain ⟨⟨outcome, reach'⟩, after⟩ := result
      have hunseen : Reach.unseen.join reach' = reach' := rfl
      obtain ⟨⟨value, next⟩ | ⟨place, committed⟩, reach⟩ := first
      · cases outcome with
        | success values last => simp [Reply.forgotten, Reply.after, hunseen]
        | failure place committed =>
          constructor
          · rintro hequal _ _ _ _ _ _ _ _ ⟨⟩ ⟨⟩
            have hreply := congrArg Prod.fst (Option.some.inj hequal)
            exact (congrArg Reply.reach hreply).symm
          · intro hjoin
            simp [Reply.forgotten, Reply.after, hjoin _ _ _ _ _ _ _ _ rfl rfl]
      · simp [Reply.forgotten, Reply.after, hunseen]

/-- An item of which one alternative went further than the separator is looked for. -/
theorem sepBy_forgets_alternative :
    let G : Grammar ⟨Unit, fun _ => Unit⟩ := ⟨fun _ => .fail, fun _ => false⟩
    let item := Parser.choice [.lit "a" *> .lit "b" *> .lit "c", .lit "a"]
    let comma := .commit (.lit ",") "m"
    G.session 5 1 (.sepBy item comma) (.ofPos "abx".toList 0) {} =
        some (⟨.failure 1 (some "m"), .missed 1 "','"⟩, {}) ∧
      G.session 5 1 (.separated item comma) (.ofPos "abx".toList 0) {} =
        some (⟨.failure 1 (some "m"), .missed 2 "'c'"⟩, {}) ∧
      Reach.missed 1 "','" ≠ .missed 2 "'c'" :=
  ⟨rfl, rfl, by decide⟩

end Grammar
end AgentLang.Parse
