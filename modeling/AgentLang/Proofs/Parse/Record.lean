import AgentLang.Proofs.Parse.Session

/-!
# Records of runs

What happens while a parser runs is put down in order: every parser that is started and that comes
back, every terminal that fails, and every failure that is made final. Without its record a recorded
run is the run itself.
-/

namespace AgentLang.Parse

variable {S : Signature} {m : Type → Type} {α β : Type}

inductive Event where
  /-- A parser is started. -/
  | started (pos : Nat)
  /-- A terminal fails. -/
  | missed (pos : Nat) (name : String)
  /-- A failure that was not final becomes final with a message. -/
  | closed (pos : Nat) (message : String)
  /-- A parser comes back, and possibly with a final failure. -/
  | stopped (final : Option (Nat × String))
  deriving DecidableEq

namespace Event

def isStart : Event → Bool
  | .started _ => true
  | _ => false

def miss? : Event → Option (Nat × String)
  | .missed pos name => some (pos, name)
  | _ => none

end Event

/-- The place and the message of a failure that is final. -/
def Outcome.final? : Outcome α → Option (Nat × String)
  | .failure pos (some message) => some (pos, message)
  | _ => none

/-- The reply is no final failure. -/
def Reply.Open (reply : Reply α) : Prop :=
  match reply.outcome with
  | .failure _ (some _) => False
  | _ => True

/-- Runs that keep a record. -/
abbrev Recorded (m : Type → Type) : Type → Type :=
  StateT (List Event) m

namespace Recorded

variable [Monad m]

def emit (event : Event) : Recorded m PUnit :=
  modify (· ++ [event])

/-- A parser that is started at a cursor. -/
def watched (c : Cursor) (x : Recorded m (Reply α)) : Recorded m (Reply α) := do
  emit (.started c.pos)
  let reply ← x
  emit (.stopped reply.outcome.final?)
  return reply

/-- The reply of a terminal. -/
def attempt (name : String) (reply : Reply α) : Recorded m (Reply α) :=
  match reply.outcome with
  | .success .. => return reply
  | .failure pos _ => do
    emit (.missed pos name)
    return reply

end Recorded

namespace Engine

open Recorded (emit watched attempt)

variable [Monad m]

def record (E : Engine S (Recorded m)) :
    {α : Type} → Parser S α → Cursor → Recorded m (Reply α)
  | _, .text literal name, c => watched c (attempt name (matchText literal name c))
  | _, .keyword word name, c => watched c (attempt name (matchKeyword word name c))
  | _, .token shape name, c => watched c (attempt name (matchToken shape name c))
  | _, .eof, c => watched c (attempt "end of input" (matchEnd c))
  | _, .pure value, c => watched c (return .succeed value c)
  | _, .fail, c => watched c (return ⟨.failure c.pos none, .unseen⟩)
  | _, .map f p, c => watched c do return (← record E p c).map f
  | _, .seq p q, c =>
    watched c (andThen (record E p c) fun f next => return (← record E q next).map f)
  | _, .alt p q, c => watched c do
    let reply ← record E p c
    match reply.outcome with
    | .failure _ none =>
      let other ← record E q c
      match other.outcome with
      | .failure _ none => return ⟨.failure c.pos none, reply.reach.join other.reach⟩
      | _ => return other.after reply.reach
    | _ => return reply
  | _, .optional p, c => watched c do
    let reply ← record E p c
    match reply.outcome with
    | .failure _ none => return ⟨.success none c, reply.reach⟩
    | _ => return reply.map some
  | _, .many p, c => watched c (repeated E (record E p) E.rounds c)
  | _, .many1 p, c => watched c do
    let reply ← watched c (repeated E (record E p) E.rounds c)
    match reply.outcome with
    | .success [] _ =>
      let first ← record E p c
      match first.outcome with
      | .failure pos committed => return ⟨.failure pos committed, first.reach⟩
      | .success .. => return reply
    | _ => return reply
  | _, .sepBy p separator, c => watched c do
    let first ← record E p c
    match first.outcome with
    | .failure pos (some message) => return ⟨.failure pos (some message), first.reach⟩
    | .failure _ none => return ⟨.success [] c, first.reach⟩
    | .success value next =>
      let others ← watched next (repeated E
        (fun c => watched c (andThen (record E separator c) fun _ => record E p)) E.rounds next)
      match others.outcome with
      | .failure pos committed => return ⟨.failure pos committed, others.reach⟩
      | .success values last =>
        return ⟨.success (value :: values) last, first.reach.join others.reach⟩
  | _, .lookahead p, c => watched c do
    let reply ← record E p c
    match reply.outcome with
    | .success value _ => return .succeed value c
    | .failure .. => return reply
  | _, .notFollowedBy p name, c => watched c do
    let reply ← record E p c
    match reply.outcome with
    | .success .. => return .miss c.pos ("not " ++ name)
    | .failure .. => return .succeed () c
  | _, .label p name, c => watched c do
    let reply ← record E p c
    match reply.outcome with
    | .failure _ none => if reply.reach.within c.pos then return .miss c.pos name else return reply
    | _ => return reply
  | _, .commit p message, c => watched c do
    let reply ← record E p c
    match reply.outcome with
    | .failure pos none =>
      emit (.closed pos message)
      return ⟨.failure pos (some message), reply.reach⟩
    | _ => return reply
  | _, .probe mark p, c => watched c do
    E.mark mark c.pos
    record E p c
  | _, .call r, c => watched c (E.call r c)

end Engine

/-! ### Records of plain runs and of sessions -/

namespace Grammar

/-- The record of a rule in a plain run. -/
def recordRule (G : Grammar S) (rounds : Nat) :
    (depth : Nat) → (r : S.Rule) → Cursor → Recorded Option (Reply (S.Out r))
  | 0, _, _ => fun _ => none
  | depth + 1, r, c => Engine.record
      ⟨G.recordRule rounds depth, fun _ _ => pure (), fun _ => none, rounds⟩ (G.body r) c

/-- The engine behind the records of plain runs. -/
abbrev recorder (G : Grammar S) (rounds depth : Nat) : Engine S (Recorded Option) :=
  ⟨G.recordRule rounds depth, fun _ _ => pure (), fun _ => none, rounds⟩

variable [DecidableEq S.Rule] [Hashable S.Rule]

/-- The reply known for a rule leaves no record of how it was found. -/
def Session.recalled (r : S.Rule) (pos : Nat) (compute : Recorded (Session S) (Reply (S.Out r))) :
    Recorded (Session S) (Reply (S.Out r)) := do
  match (← StateT.lift get).replies.get? (r, pos) with
  | some reply => return reply
  | none =>
    let reply ← compute
    StateT.lift (modify (·.remember r pos reply))
    return reply

section

variable {r : S.Rule} {pos : Nat} {reply : Reply (S.Out r)} {log : List Event} {memory : Memory S}
  {compute : Recorded (Session S) (Reply (S.Out r))}

theorem recalled_hit (h : memory.replies.get? (r, pos) = some reply) :
    Session.recalled r pos compute log memory = some ((reply, log), memory) := by
  simp [Session.recalled, bind, StateT.bind, StateT.lift, get, getThe, MonadStateOf.get, StateT.get,
    h, pure, StateT.pure]

theorem recalled_miss (h : memory.replies.get? (r, pos) = none) :
    Session.recalled r pos compute log memory =
      (compute log memory).map fun (out, after) => (out, after.remember r pos out.1) := by
  simp only [Session.recalled, bind, StateT.bind, StateT.lift, get, getThe, MonadStateOf.get,
    StateT.get, h, pure, StateT.pure, Option.bind_some]
  cases compute log memory <;> rfl

end

/-- The record of a rule in a session. -/
def recordSessionRule (G : Grammar S) (rounds : Nat) :
    (depth : Nat) → (r : S.Rule) → Cursor → Recorded (Session S) (Reply (S.Out r))
  | 0, _, _ => fun _ => Session.exhausted
  | depth + 1, r, c =>
    let compute := Engine.record
      ⟨G.recordSessionRule rounds depth, fun name pos => StateT.lift (Session.mark name pos),
        fun _ => Session.exhausted, rounds⟩ (G.body r) c
    if G.memoised r then Session.recalled r c.pos compute else compute

/-- The engine behind the records of sessions. -/
abbrev sessionRecorder (G : Grammar S) (rounds depth : Nat) : Engine S (Recorded (Session S)) :=
  ⟨G.recordSessionRule rounds depth, fun name pos => StateT.lift (Session.mark name pos),
    fun _ => Session.exhausted, rounds⟩

end Grammar

/-! ### Without the record -/

namespace Recorded

variable [Monad m] [LawfulMonad m]

/-- Without its record the first run is the second one. -/
def Erases (x : Recorded m α) (y : m α) : Prop :=
  ∀ log, Prod.fst <$> x log = y

theorem erases_pure (a : α) : Erases (pure a : Recorded m α) (pure a) := by
  intro log
  exact map_pure _ _

theorem erases_lift (x : m α) : Erases (StateT.lift x : Recorded m α) x := by
  intro log
  simp [StateT.lift]

theorem erases_bind {x : Recorded m α} {y : m α} {f : α → Recorded m β} {g : α → m β}
    (hx : Erases x y) (hf : ∀ a, Erases (f a) (g a)) : Erases (x >>= f) (y >>= g) := by
  intro log
  rw [← hx log]
  change Prod.fst <$> (x log >>= fun out => f out.1 out.2) = _
  rw [map_bind, bind_map_left]
  exact bind_congr fun out => hf out.1 out.2

theorem erases_emit {x : Recorded m α} {y : m α} (event : Event) (hx : Erases x y) :
    Erases (emit event >>= fun _ => x) y := by
  intro log
  change Prod.fst <$> ((pure ((), log ++ [event]) : m (PUnit × List Event)) >>= fun out =>
    x out.2) = y
  rw [pure_bind]
  exact hx _

theorem erases_watched {x : Recorded m (Reply α)} {y : m (Reply α)} (hx : Erases x y) :
    Erases (watched c x) y := by
  refine erases_emit _ ?_
  rw [← bind_pure y]
  exact erases_bind hx fun reply => erases_emit _ (erases_pure reply)

theorem erases_attempt (name : String) (reply : Reply α) :
    Erases (attempt name reply : Recorded m (Reply α)) (pure reply) := by
  unfold attempt
  split
  · exact erases_pure reply
  · exact erases_emit _ (erases_pure reply)

end Recorded

/-- Without its records the first engine is the second one. -/
structure Erasure [Monad m] (E : Engine S (Recorded m)) (F : Engine S m) : Prop where
  call : ∀ r c, Recorded.Erases (E.call r c) (F.call r c)
  mark : ∀ name pos, Recorded.Erases (E.mark name pos) (F.mark name pos)
  exhausted : ∀ α, Recorded.Erases (E.exhausted (α := α)) F.exhausted
  rounds : E.rounds = F.rounds

namespace Erasure

open Recorded

variable [Monad m] [LawfulMonad m] {E : Engine S (Recorded m)} {F : Engine S m}

theorem andThen {x : Recorded m (Reply α)} {y : m (Reply α)}
    {f : α → Cursor → Recorded m (Reply β)} {g : α → Cursor → m (Reply β)} (hx : Erases x y)
    (hf : ∀ value next, Erases (f value next) (g value next)) :
    Erases (Engine.andThen x f) (Engine.andThen y g) := by
  refine erases_bind hx fun reply => ?_
  split
  · exact erases_bind (hf _ _) fun other => erases_pure _
  · exact erases_pure _

theorem repeated (h : Erasure E F) {step : Cursor → Recorded m (Reply α)}
    {step' : Cursor → m (Reply α)} (hstep : ∀ c, Erases (step c) (step' c)) (k : Nat) (c : Cursor) :
    Erases (E.repeated step k c) (F.repeated step' k c) := by
  induction k generalizing c with
  | zero => exact h.exhausted _
  | succ k ih =>
    refine erases_bind (hstep c) fun reply => ?_
    split
    · exact erases_pure _
    · exact erases_pure _
    · split
      · exact erases_pure _
      · exact erases_bind (ih _) fun others => erases_pure _

/-- A recorded run is the run itself. -/
theorem record (h : Erasure E F) (p : Parser S α) (c : Cursor) :
    Erases (E.record p c) (F.run p c) := by
  induction p generalizing c with
  | text | keyword | token | eof => exact erases_watched (erases_attempt _ _)
  | pure | fail => exact erases_watched (erases_pure _)
  | map f p ih => exact erases_watched (erases_bind (ih c) fun reply => erases_pure _)
  | seq p q ihp ihq =>
    refine erases_watched (andThen (ihp c) fun f next => ?_)
    exact erases_bind (ihq next) fun reply => erases_pure _
  | alt p q ihp ihq =>
    refine erases_watched (erases_bind (ihp c) fun reply => ?_)
    obtain ⟨_ | ⟨pos, _ | message⟩, reach⟩ := reply
    · exact erases_pure _
    · refine erases_bind (ihq c) fun other => ?_
      obtain ⟨_ | ⟨pos, _ | message⟩, reach⟩ := other <;> exact erases_pure _
    · exact erases_pure _
  | optional p ih =>
    refine erases_watched (erases_bind (ih c) fun reply => ?_)
    obtain ⟨_ | ⟨pos, _ | message⟩, reach⟩ := reply <;> exact erases_pure _
  | many p ih =>
    refine erases_watched ?_
    rw [h.rounds]
    exact h.repeated ih _ c
  | many1 p ih =>
    refine erases_watched ?_
    rw [h.rounds]
    refine erases_bind (erases_watched (h.repeated ih _ c)) fun reply => ?_
    obtain ⟨⟨_ | ⟨value, values⟩, next⟩ | ⟨pos, committed⟩, reach⟩ := reply
    · refine erases_bind (ih c) fun first => ?_
      obtain ⟨_ | ⟨pos, committed⟩, reach⟩ := first <;> exact erases_pure _
    · exact erases_pure _
    · exact erases_pure _
  | sepBy p separator ihp ihs =>
    refine erases_watched (erases_bind (ihp c) fun first => ?_)
    obtain ⟨⟨value, next⟩ | ⟨pos, _ | message⟩, reach⟩ := first
    · dsimp only
      rw [h.rounds]
      refine erases_bind (erases_watched (h.repeated (fun c => ?_) _ next)) fun others => ?_
      · exact erases_watched (andThen (ihs c) fun _ => ihp)
      · obtain ⟨_ | ⟨pos, committed⟩, reach⟩ := others <;> exact erases_pure _
    · exact erases_pure _
    · exact erases_pure _
  | lookahead _ ih | notFollowedBy _ _ ih =>
    refine erases_watched (erases_bind (ih c) fun reply => ?_)
    obtain ⟨_ | ⟨pos, committed⟩, reach⟩ := reply <;> exact erases_pure _
  | label p name ih =>
    refine erases_watched (erases_bind (ih c) fun reply => ?_)
    obtain ⟨_ | ⟨pos, _ | message⟩, reach⟩ := reply
    · exact erases_pure _
    · dsimp only
      split <;> exact erases_pure _
    · exact erases_pure _
  | commit p message ih =>
    refine erases_watched (erases_bind (ih c) fun reply => ?_)
    obtain ⟨_ | ⟨pos, _ | message⟩, reach⟩ := reply
    · exact erases_pure _
    · exact erases_emit _ (erases_pure _)
    · exact erases_pure _
  | probe mark p ih => exact erases_watched (erases_bind (h.mark mark c.pos) fun _ => ih c)
  | call r => exact erases_watched (h.call r c)

end Erasure

namespace Grammar

open Recorded

variable {G : Grammar S} {rounds depth : Nat}

theorem recordRule_erases (r : S.Rule) (c : Cursor) :
    Erases (G.recordRule rounds depth r c) (G.evalRule rounds depth r c) := by
  induction depth generalizing r c with
  | zero => exact fun _ => rfl
  | succ depth ih =>
    have herasure : Erasure (G.recorder rounds depth) (G.plain rounds depth) :=
      ⟨ih, fun _ _ => erases_pure (), fun _ _ => rfl, rfl⟩
    exact herasure.record (G.body r) c

theorem recorder_erasure : Erasure (G.recorder rounds depth) (G.plain rounds depth) :=
  ⟨recordRule_erases, fun _ _ => erases_pure (), fun _ _ => rfl, rfl⟩

variable [DecidableEq S.Rule] [Hashable S.Rule]

theorem recalled_erases {r : S.Rule} {x : Recorded (Session S) (Reply (S.Out r))}
    {y : Session S (Reply (S.Out r))} (h : Erases x y) :
    Erases (Session.recalled r pos x) (Session.remembered r pos y) := by
  have hget : Erases (StateT.lift (m := Session S) get) get := erases_lift get
  refine erases_bind hget fun memory => ?_
  cases memory.replies.get? (r, pos) with
  | some reply => exact erases_pure reply
  | none =>
    refine erases_bind h fun reply => ?_
    exact erases_bind (erases_lift _) fun _ => erases_pure reply

theorem recordSessionRule_erases (r : S.Rule) (c : Cursor) :
    Erases (G.recordSessionRule rounds depth r c) (G.sessionRule rounds depth r c) := by
  induction depth generalizing r c with
  | zero => exact fun _ => rfl
  | succ depth ih =>
    have herasure : Erasure (G.sessionRecorder rounds depth) (G.remembering rounds depth) :=
      ⟨ih, fun _ _ => erases_lift _, fun _ _ => rfl, rfl⟩
    have hbody := herasure.record (G.body r) c
    unfold recordSessionRule
    rw [sessionRule_succ]
    split
    · exact recalled_erases hbody
    · exact hbody

theorem sessionRecorder_erasure :
    Erasure (G.sessionRecorder rounds depth) (G.remembering rounds depth) :=
  ⟨recordSessionRule_erases, fun _ _ => erases_lift _, fun _ _ => rfl, rfl⟩

end Grammar
end AgentLang.Parse
