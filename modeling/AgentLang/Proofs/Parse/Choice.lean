import AgentLang.Proofs.Parse.Memoisation
import AgentLang.Proofs.Parse.Reach

/-!
# Choices

Joining what failures reach is associative, commutative and idempotent, and to have met none is its
unit. A choice that stands in a choice can therefore be opened, and where no alternative is taken
their order does not show.
-/

namespace AgentLang

open List

theorem Names.ext_mem {left right : Names} (h : ∀ x, x ∈ left ↔ x ∈ right) : left = right := by
  have hlist : left.list = right.list := left.ascending.eq_of_mem_iff right.ascending h
  obtain ⟨list, ascending⟩ := left
  cases hlist
  rfl

namespace Parse

/-! ### Joining -/

namespace Reach

theorem join_of_lt (h : p < q) (left right : Names) :
    (upTo p left).join (upTo q right) = upTo q right := if_pos h

theorem join_of_gt (h : q < p) (left right : Names) :
    (upTo p left).join (upTo q right) = upTo p left := by
  rw [join, if_neg (Nat.lt_asymm h), if_pos h]

theorem join_of_eq (p : Nat) (left right : Names) :
    (upTo p left).join (upTo p right) = upTo p (left ∪ right) := by
  rw [join, if_neg (Nat.lt_irrefl p), if_neg (Nat.lt_irrefl p)]

instance : Std.IdempotentOp Reach.join where
  idempotent reach := by
    cases reach with
    | unseen => rfl
    | upTo p names =>
      rw [join_of_eq]
      refine congrArg _ (Names.ext_mem fun x => ?_)
      rw [Names.mem_union, or_self]

instance : Std.Commutative Reach.join where
  comm left right := by
    obtain _ | ⟨p, names⟩ := left
    · exact (join_unseen right).symm
    obtain _ | ⟨q, others⟩ := right
    · rfl
    rcases Nat.lt_trichotomy p q with h | rfl | h
    · rw [join_of_lt h, join_of_gt h]
    · rw [join_of_eq, join_of_eq]
      refine congrArg _ (Names.ext_mem fun x => ?_)
      rw [Names.mem_union, Names.mem_union, or_comm]
    · rw [join_of_gt h, join_of_lt h]

instance : Std.Associative Reach.join where
  assoc left middle right := by
    obtain _ | ⟨p, names⟩ := left
    · rfl
    obtain _ | ⟨q, others⟩ := middle
    · rfl
    obtain _ | ⟨r, more⟩ := right
    · rw [join_unseen, join_unseen]
    rcases Nat.lt_trichotomy p q with h | h | h
    · rw [join_of_lt h]
      rcases Nat.lt_trichotomy q r with h' | rfl | h'
      · rw [join_of_lt h', join_of_lt (h.trans h')]
      · rw [join_of_eq, join_of_lt h]
      · rw [join_of_gt h', join_of_lt h]
    · subst h
      rw [join_of_eq]
      rcases Nat.lt_trichotomy p r with h' | rfl | h'
      · rw [join_of_lt h', join_of_lt h', join_of_lt h']
      · rw [join_of_eq, join_of_eq, join_of_eq]
        refine congrArg _ (Names.ext_mem fun x => ?_)
        simp only [Names.mem_union, or_assoc]
      · rw [join_of_gt h', join_of_gt h', join_of_eq]
    · rw [join_of_gt h]
      rcases Nat.lt_trichotomy q r with h' | rfl | h'
      · rw [join_of_lt h']
      · rw [join_of_eq, join_of_gt h, join_of_gt h]
      · rw [join_of_gt h', join_of_gt h, join_of_gt (h'.trans h)]

end Reach

/-! ### Alternatives -/

/-- The reply of a choice at a cursor, when `reply` is that of its later alternatives. -/
def Reply.otherwise {α : Type} (c : Cursor) (earlier : Reach) (reply : Reply α) : Reply α :=
  match reply.outcome with
  | .failure _ none => ⟨.failure c.pos none, earlier.join reply.reach⟩
  | _ => reply.after earlier

theorem Reply.otherwise_join {α : Type} (c : Cursor) (first second : Reach) (reply : Reply α) :
    reply.otherwise c (first.join second) = (reply.otherwise c second).otherwise c first := by
  have hassoc : (first.join second).join _ = _ := Std.Associative.assoc first second reply.reach
  obtain ⟨⟨value, next⟩ | ⟨pos, _ | message⟩, reach⟩ := reply <;>
    simp only [otherwise, after, hassoc]

namespace Engine

variable {S : Signature} {m : Type → Type} [Monad m] [LawfulMonad m] {E : Engine S m} {α : Type}
  {c : Cursor}

theorem run_alt (p q : Parser S α) :
    E.run (.alt p q) c = E.run p c >>= fun reply =>
      match reply.outcome with
      | .failure _ none => (·.otherwise c reply.reach) <$> E.run q c
      | _ => pure reply := by
  refine bind_congr fun reply => ?_
  obtain ⟨⟨value, next⟩ | ⟨pos, _ | message⟩, reach⟩ := reply
  · rfl
  · rw [map_eq_pure_bind]
    refine bind_congr fun other => ?_
    obtain ⟨⟨value, next⟩ | ⟨pos, _ | message⟩, reach'⟩ := other <;> rfl
  · rfl

theorem run_alt_assoc (p q r : Parser S α) :
    E.run (.alt (.alt p q) r) c = E.run (.alt p (.alt q r)) c := by
  rw [run_alt, run_alt p q, run_alt p, bind_assoc]
  refine bind_congr fun reply => ?_
  obtain ⟨⟨value, next⟩ | ⟨pos, _ | message⟩, reach⟩ := reply
  · exact pure_bind _ _
  · simp only [run_alt q, map_bind, bind_map_left]
    refine bind_congr fun other => ?_
    obtain ⟨⟨value, next⟩ | ⟨pos, _ | message⟩, reach'⟩ := other
    · rw [map_pure]
      rfl
    · rw [Functor.map_map]
      exact congrArg (· <$> E.run r c) (funext (Reply.otherwise_join c reach reach'))
    · rw [map_pure]
      rfl
  · exact pure_bind _ _

theorem run_choice_cons (p : Parser S α) (others : List (Parser S α)) :
    E.run (.choice (p :: others)) c = E.run p c >>= fun reply =>
      match reply.outcome with
      | .failure _ none => (·.otherwise c reply.reach) <$> E.run (.choice others) c
      | _ => pure reply := run_alt p (.choice others)

theorem run_choice_nil_cons (alternatives : List (Parser S α)) :
    E.run (.choice (.choice [] :: alternatives)) c = E.run (.choice alternatives) c := by
  rw [run_choice_cons]
  refine (pure_bind _ _).trans ?_
  cases alternatives with
  | nil => exact map_pure _ _
  | cons p others =>
    -- a choice with an alternative fails at its own start already
    rw [run_choice_cons, map_bind]
    refine bind_congr fun reply => ?_
    obtain ⟨⟨value, next⟩ | ⟨pos, _ | message⟩, reach⟩ := reply
    · exact map_pure _ _
    · rw [Functor.map_map]
      exact congrArg (· <$> _) (funext fun other => (other.otherwise_join c .unseen reach).symm)
    · exact map_pure _ _

/-- A choice that stands in a choice can be opened. -/
theorem run_choice_choice (before inner after : List (Parser S α)) :
    E.run (.choice (before ++ .choice inner :: after)) c =
      E.run (.choice (before ++ inner ++ after)) c := by
  induction before with
  | nil =>
    induction inner with
    | nil => exact run_choice_nil_cons after
    | cons p inner ih =>
      have hassoc : E.run (.choice ([] ++ .choice (p :: inner) :: after)) c =
          E.run (.choice (p :: ([] ++ .choice inner :: after))) c := run_alt_assoc ..
      rw [hassoc, run_choice_cons, ih, ← run_choice_cons]
      rfl
  | cons p before ih =>
    rw [cons_append, run_choice_cons, ih, ← run_choice_cons]
    rfl

end Engine

namespace Grammar

variable {S : Signature} {α : Type} {G : Grammar S} {rounds depth : Nat} {c : Cursor}
  {alternatives : List (Parser S α)}

/-- What the failures that a parser meets at a cursor reach. -/
def reached (G : Grammar S) (rounds depth : Nat) (c : Cursor) (p : Parser S α) : Reach :=
  ((G.eval rounds depth p c).map Reply.reach).getD .unseen

theorem eval_choice_of_failures (h : ∀ p ∈ alternatives, ∃ place reach,
      G.eval rounds depth p c = some ⟨.failure place none, reach⟩) :
    G.eval rounds depth (.choice alternatives) c = some ⟨.failure c.pos none,
      (alternatives.map (G.reached rounds depth c)).foldr Reach.join .unseen⟩ := by
  induction alternatives with
  | nil => rfl
  | cons p others ih =>
    obtain ⟨place, reach, hp⟩ := h p mem_cons_self
    have hothers := ih fun q hq => h q (mem_cons_of_mem p hq)
    have hreach : G.reached rounds depth c p = reach := by rw [reached, hp]; rfl
    rw [map_cons, foldr_cons, hreach]
    refine (Engine.run_choice_cons p others).trans ?_
    change (G.eval rounds depth p c).bind _ = _
    rw [hp]
    exact congrArg (Option.map _) hothers

variable [DecidableEq S.Rule] [Hashable S.Rule] {text : List Char} {pos : Nat}

theorem eval_failures (h : ∀ p ∈ alternatives, ∃ rounds depth place reach memory,
      G.session rounds depth p (.ofPos text pos) {} =
        some (⟨.failure place none, reach⟩, memory)) :
    ∃ rounds depth, ∀ p ∈ alternatives, ∃ place reach,
      G.eval rounds depth p (.ofPos text pos) = some ⟨.failure place none, reach⟩ := by
  induction alternatives with
  | nil => exact ⟨0, 0, fun p hp => absurd hp not_mem_nil⟩
  | cons p others ih =>
    obtain ⟨rounds, _, place, reach, memory, hp⟩ := h p mem_cons_self
    obtain ⟨rounds', depth', hothers⟩ := ih fun q hq => h q (mem_cons_of_mem p hq)
    obtain ⟨-, least, hleast⟩ := eval_of_session (Cursor.on_ofPos text pos) faithful_empty hp
    refine ⟨max rounds rounds', max least depth', fun q hq => ?_⟩
    rcases mem_cons.mp hq with rfl | hq
    · exact ⟨place, reach, eval_mono (Nat.le_max_left ..) (Nat.le_max_left ..)
        (hleast least (Nat.le_refl least))⟩
    · obtain ⟨place, reach, hq⟩ := hothers q hq
      exact ⟨place, reach, eval_mono (Nat.le_max_right ..) (Nat.le_max_right ..) hq⟩

/-- Findings join in any grouping, in any order and with repetitions, and to have met no failure adds
nothing. So a choice that stands in a choice can be opened without a change to any reply, and where
all alternatives fail without commitment the choice reports the same in every order of them. -/
theorem choice_joins (G : Grammar S) :
    ((∀ a b c : Reach, (a.join b).join c = a.join (b.join c)) ∧
      (∀ a b : Reach, a.join b = b.join a) ∧
      ∀ a : Reach, a.join a = a ∧ Reach.unseen.join a = a ∧ a.join .unseen = a) ∧
    (∀ (rounds depth : Nat) (before inner after : List (Parser S α)) (text : List Char) (pos : Nat),
      G.session rounds depth (.choice (before ++ .choice inner :: after)) (.ofPos text pos) =
        G.session rounds depth (.choice (before ++ inner ++ after)) (.ofPos text pos)) ∧
    ∀ (alternatives : List (Parser S α)) (text : List Char) (pos : Nat),
      (∀ p ∈ alternatives, ∃ rounds depth place reach memory,
        G.session rounds depth p (.ofPos text pos) {} =
          some (⟨.failure place none, reach⟩, memory)) →
      ∃ reach, ∀ others, alternatives.Perm others →
        (∃ rounds depth memory, G.session rounds depth (.choice others) (.ofPos text pos) {} =
          some (⟨.failure pos none, reach⟩, memory)) ∧
        ∀ rounds depth reply memory,
          G.session rounds depth (.choice others) (.ofPos text pos) {} = some (reply, memory) →
          reply = ⟨.failure pos none, reach⟩ := by
  refine ⟨⟨Std.Associative.assoc, Std.Commutative.comm, fun reach => ?_⟩, ?_, ?_⟩
  · exact ⟨Std.IdempotentOp.idempotent reach, rfl, Reach.join_unseen reach⟩
  · exact fun rounds depth before inner after text pos => Engine.run_choice_choice before inner after
  · intro alternatives text pos h
    obtain ⟨rounds, depth, hfail⟩ := eval_failures h
    refine ⟨(alternatives.map (G.reached rounds depth (.ofPos text pos))).foldr Reach.join .unseen,
      fun others hperm => ?_⟩
    have heval := eval_choice_of_failures fun p hp => hfail p (hperm.mem_iff.mpr hp)
    rw [← (hperm.map _).foldr_op_eq] at heval
    obtain ⟨memory, hsession⟩ := session_of_eval heval
    exact ⟨⟨rounds, depth, memory, hsession⟩, fun _ _ _ _ h' => session_unique h' hsession⟩

theorem choice_joins_reversed :
    let G : Grammar ⟨Unit, fun _ => Unit⟩ := ⟨fun _ => .fail, fun _ => false⟩
    let alternatives := [.lit "a" *> .lit "b", .lit "c", .lit "a" *> .lit "d"]
    (∀ p ∈ alternatives, ∃ rounds depth place reach memory,
      G.session rounds depth p (.ofPos "ax".toList 0) {} =
        some (⟨.failure place none, reach⟩, memory)) ∧
      ∃ rounds depth memory,
        G.session rounds depth (.choice alternatives.reverse) (.ofPos "ax".toList 0) {} =
          some (⟨.failure 0 none, .upTo 1 (.ofList ["'b'", "'d'"])⟩, memory) := by
  intro G alternatives
  have hfail : ∀ p ∈ alternatives, ∃ rounds depth place reach memory,
      G.session rounds depth p (.ofPos "ax".toList 0) {} =
        some (⟨.failure place none, reach⟩, memory) := by
    simp only [alternatives, forall_mem_cons]
    exact ⟨⟨0, 0, _, _, _, rfl⟩, ⟨0, 0, _, _, _, rfl⟩, ⟨0, 0, _, _, _, rfl⟩, nofun⟩
  obtain ⟨reach, hreach⟩ := (choice_joins G).2.2 alternatives "ax".toList 0 hfail
  -- the order in which they are written tells what is reported
  have hwritten := (hreach alternatives (.refl _)).2 0 0 _ _ rfl
  have hreported : Reach.upTo 1 (.ofList ["'b'", "'d'"]) = reach := congrArg Reply.reach hwritten
  rw [hreported]
  exact ⟨hfail, (hreach alternatives.reverse alternatives.reverse_perm.symm).1⟩

end Grammar
end Parse
end AgentLang
