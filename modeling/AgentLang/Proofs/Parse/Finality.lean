import AgentLang.Proofs.Parse.Memoisation
import AgentLang.Proofs.Parse.Parts
import AgentLang.Proofs.Parse.Record

/-!
# Final failures

Once a parser has come back with a final failure, no other parser is started, and every parser around
it comes back with the same failure. It has its message from the innermost parser that commits
itself around the place where the failure happened. Only a parser that asks whether something does
not follow would go on. A session never remembers a final failure while it goes on.
-/

namespace AgentLang.Parse

open List

variable {S : Signature} {α β : Type}

/-- Whether the parser asks by itself that something does not follow. -/
def Parser.negates : {α : Type} → Parser S α → Bool
  | _, .map _ p => p.negates
  | _, .seq p q => p.negates || q.negates
  | _, .alt p q => p.negates || q.negates
  | _, .optional p => p.negates
  | _, .many p => p.negates
  | _, .many1 p => p.negates
  | _, .sepBy p separator => p.negates || separator.negates
  | _, .lookahead p => p.negates
  | _, .notFollowedBy _ _ => true
  | _, .label p _ => p.negates
  | _, .commit p _ => p.negates
  | _, .probe _ p => p.negates
  | _, _ => false

/-! ### Records of final failures -/

namespace Event

def IsQuiet (event : Event) : Prop :=
  ∀ failure, event ≠ .stopped (some failure)

end Event

/-- No parser comes back with a final failure. -/
def Quiet (events : List Event) : Prop :=
  ∀ event ∈ events, event.IsQuiet

/-- A failure is made final, and from then on parsers only come back with it. -/
def Falls (pos : Nat) (message : String) (events : List Event) : Prop :=
  ∃ before after, events = before ++ after ∧ Quiet before ∧ .closed pos message ∈ before ∧
    ∀ event ∈ after, event = .stopped (some (pos, message))

/-- The record is the one of a run that ends with the reply. -/
def Reply.Settled (reply : Reply α) (events : List Event) : Prop :=
  match reply.outcome with
  | .failure pos (some message) => Falls pos message events
  | _ => Quiet events

theorem Quiet.append (h : Quiet events) (h' : Quiet events') : Quiet (events ++ events') := by
  intro event hevent
  rcases mem_append.mp hevent with hevent | hevent
  · exact h event hevent
  · exact h' event hevent

theorem quiet_singleton (h : event.IsQuiet) : Quiet [event] := by
  intro event' hevent
  obtain rfl := List.mem_singleton.mp hevent
  exact h

theorem Falls.after_quiet (h : Quiet events) (h' : Falls pos message events') :
    Falls pos message (events ++ events') := by
  obtain ⟨before, after, rfl, hbefore, hclosed, hafter⟩ := h'
  refine ⟨events ++ before, after, (append_assoc _ _ _).symm, h.append hbefore, ?_, hafter⟩
  exact mem_append_right _ hclosed

theorem Falls.stopped (h : Falls pos message events) :
    Falls pos message (events ++ [.stopped (some (pos, message))]) := by
  obtain ⟨before, after, rfl, hbefore, hclosed, hafter⟩ := h
  refine ⟨before, after ++ [_], append_assoc _ _ _, hbefore, hclosed, fun event hevent => ?_⟩
  rcases mem_append.mp hevent with hevent | hevent
  · exact hafter event hevent
  · exact List.mem_singleton.mp hevent

/-- A parser that comes back with a final failure is followed by nothing else. -/
theorem Falls.of_split {after} (h : Falls pos message events)
    (hsplit : events = before ++ .stopped (some (failed, text)) :: after) :
    (∀ event ∈ after, event.isStart = false) ∧ failed = pos ∧ text = message := by
  obtain ⟨quiet, loud, rfl, hquiet, -, hloud⟩ := h
  -- The failure that comes back is not in the part before the failure was made final.
  have hlate : ∃ others, loud = others ++ .stopped (some (failed, text)) :: after := by
    rcases append_eq_append_iff.mp hsplit with ⟨others, -, hothers⟩ | ⟨others, hothers, hrest⟩
    · exact ⟨others, hothers⟩
    · cases others with
      | nil => exact ⟨[], hrest.symm⟩
      | cons event others =>
        obtain ⟨rfl, -⟩ := List.cons.inj hrest
        exact absurd rfl (hquiet _ (hothers ▸ mem_append_right _ mem_cons_self) _)
  obtain ⟨others, rfl⟩ := hlate
  have hsame := hloud _ (mem_append_right _ mem_cons_self)
  refine ⟨fun event hevent => ?_, ?_⟩
  · rw [hloud event (mem_append_right _ (mem_cons_of_mem _ hevent))]
    rfl
  · simpa using hsame

/-! ### Sessions -/

namespace Grammar

open Recorded

variable [DecidableEq S.Rule] [Hashable S.Rule] {G : Grammar S} {rounds depth : Nat}

/-- No final failure is remembered. -/
def Calm (memory : Memory S) : Prop :=
  memory.All fun _ _ reply => reply.Open

/-- A recorded session that has gone on quietly so far ends as its reply says. -/
def Settles (before : List Event) (x : Recorded (Session S) (Reply α)) : Prop :=
  Quiet before → ∀ base memory reply log memory', Calm memory →
    x (base ++ before) memory = some ((reply, log), memory') →
    ∃ after, log = base ++ after ∧ reply.Settled after ∧ (reply.Open → Calm memory')

variable {before : List Event} {x : Recorded (Session S) (Reply α)}

theorem settles_pure (h : reply.Open) :
    Settles before (pure reply : Recorded (Session S) (Reply α)) := by
  intro hbefore base memory reply' log memory' hmemory heq
  cases heq
  refine ⟨before, rfl, ?_, fun _ => hmemory⟩
  obtain ⟨_ | ⟨pos, _ | message⟩, reach⟩ := reply
  · exact hbefore
  · exact hbefore
  · exact h.elim

theorem settles_emit (hevent : event.IsQuiet) (hx : Settles (before ++ [event]) x) :
    Settles before (emit event >>= fun _ => x) := by
  intro hbefore base memory reply log memory' hmemory heq
  refine hx (hbefore.append (quiet_singleton hevent)) base memory reply log memory' hmemory ?_
  rw [← append_assoc]
  exact heq

theorem settles_bind {f : Reply α → Recorded (Session S) (Reply β)} (hx : Settles [] x)
    (hf : ∀ reply new, reply.Open → Settles (before ++ new) (f reply))
    (hfinal : ∀ pos message reach, ∃ reach',
      f ⟨.failure pos (some message), reach⟩ = pure ⟨.failure pos (some message), reach'⟩) :
    Settles before (x >>= f) := by
  intro hbefore base memory reply log memory' hmemory heq
  obtain ⟨⟨⟨first, middle⟩, memory₁⟩, hfirst, hsecond⟩ := Option.bind_eq_some_iff.mp heq
  rw [← append_nil (base ++ before)] at hfirst
  have hquiet : Quiet [] := fun _ h => nomatch h
  obtain ⟨new, rfl, hsettled, hcalm⟩ := hx hquiet _ memory first middle memory₁ hmemory hfirst
  have hgoes : first.Open → Quiet new → ∃ after, log = base ++ after ∧ reply.Settled after ∧
      (reply.Open → Calm memory') := by
    intro hopen hnew
    refine hf first new hopen (hbefore.append hnew) base memory₁ reply log memory' (hcalm hopen) ?_
    rw [← append_assoc]
    exact hsecond
  obtain ⟨_ | ⟨pos, _ | message⟩, reach⟩ := first
  · exact hgoes trivial hsettled
  · exact hgoes trivial hsettled
  · obtain ⟨reach', hpure⟩ := hfinal pos message reach
    dsimp only at hsecond
    rw [hpure] at hsecond
    cases hsecond
    exact ⟨before ++ new, append_assoc _ _ _, Falls.after_quiet hbefore hsettled,
      fun h => h.elim⟩

theorem settles_watched (hx : Settles [] x) : Settles [] (watched c x) := by
  intro hquiet base memory reply log memory' hmemory heq
  rw [append_nil] at heq
  obtain ⟨⟨⟨inner, middle⟩, memory₁⟩, hinner, hrest⟩ := Option.bind_eq_some_iff.mp heq
  cases hrest
  have hinner : x ((base ++ [.started c.pos]) ++ []) memory = some ((reply, middle), memory') := by
    rw [append_nil]
    exact hinner
  obtain ⟨new, rfl, hsettled, hcalm⟩ := hx hquiet _ memory reply middle memory' hmemory hinner
  have hstarted : Quiet [.started c.pos] := quiet_singleton fun _ h => nomatch h
  refine ⟨[.started c.pos] ++ new ++ [.stopped reply.outcome.final?], by simp, ?_, hcalm⟩
  have hopen : reply.outcome.final? = none → Quiet new →
      Quiet ([.started c.pos] ++ new ++ [.stopped reply.outcome.final?]) := by
    intro hfinal hnew
    refine (hstarted.append hnew).append (quiet_singleton fun failure h => ?_)
    rw [hfinal] at h
    exact nomatch h
  obtain ⟨_ | ⟨pos, _ | message⟩, reach⟩ := reply
  · exact hopen rfl hsettled
  · exact hopen rfl hsettled
  · exact (Falls.after_quiet hstarted hsettled).stopped

theorem settles_closed :
    Settles before (emit (.closed pos message) >>= fun _ =>
      (pure ⟨.failure pos (some message), reach⟩ : Recorded (Session S) (Reply α))) := by
  intro hbefore base memory reply log memory' hmemory heq
  cases heq
  have hquiet : Quiet (before ++ [.closed pos message]) :=
    hbefore.append (quiet_singleton fun _ h => nomatch h)
  refine ⟨before ++ [.closed pos message], append_assoc _ _ _, ?_, fun h => h.elim⟩
  refine ⟨_, [], (append_nil _).symm, hquiet, ?_, fun _ h => nomatch h⟩
  exact mem_append_right _ (mem_singleton_self _)

theorem settles_attempt (h : reply.Open) :
    Settles [] (attempt name reply : Recorded (Session S) (Reply α)) := by
  unfold attempt
  split
  · exact settles_pure h
  · exact settles_emit (fun _ h => nomatch h) (settles_pure h)

theorem settles_andThen {f : α → Cursor → Recorded (Session S) (Reply β)} (hx : Settles [] x)
    (hf : ∀ value next, Settles [] (f value next)) : Settles [] (Engine.andThen x f) := by
  refine settles_bind hx (fun reply new hopen => ?_) fun pos message reach => ⟨_, rfl⟩
  obtain ⟨⟨value, next⟩ | ⟨pos, _ | message⟩, reach⟩ := reply
  · refine settles_bind (hf value next) (fun other new' hother => ?_) fun _ _ _ => ⟨_, rfl⟩
    exact settles_pure hother
  · exact settles_pure trivial
  · exact hopen.elim

theorem settles_repeated {E : Engine S (Recorded (Session S))}
    (hexhausted : ∀ α log memory, E.exhausted (α := α) log memory = none)
    {step : Cursor → Recorded (Session S) (Reply α)} (hstep : ∀ c, Settles [] (step c)) (k : Nat)
    (c : Cursor) : Settles [] (E.repeated step k c) := by
  induction k generalizing c with
  | zero => exact fun _ _ _ _ _ _ _ h => nomatch (hexhausted _ _ _).symm.trans h
  | succ k ih =>
    refine settles_bind (hstep c) (fun reply new hopen => ?_) fun pos message reach => ⟨_, rfl⟩
    obtain ⟨⟨value, next⟩ | ⟨pos, _ | message⟩, reach⟩ := reply
    · dsimp only
      split
      · exact settles_pure trivial
      · refine settles_bind (ih next) (fun others new' hothers => ?_) fun _ _ _ => ⟨_, rfl⟩
        obtain ⟨_ | ⟨pos, _ | message⟩, reach⟩ := others <;> exact settles_pure hothers
    · exact settles_pure trivial
    · exact hopen.elim

theorem settles_mark (name : String) (pos : Nat) (hx : Settles before x) :
    Settles before (StateT.lift (Session.mark name pos) >>= fun _ => x) :=
  fun hbefore base memory reply log memory' hmemory heq =>
    hx hbefore base (memory.note name pos) reply log memory' (hmemory.note name pos) heq

theorem record_settles (p : Parser S α) (hp : p.negates = false) (c : Cursor)
    (hcall : ∀ r ∈ p.rules, ∀ c, Settles [] (G.recordSessionRule rounds depth r c)) :
    Settles [] ((G.sessionRecorder rounds depth).record p c) := by
  induction p generalizing c with
  | text | keyword | token | eof =>
    refine settles_watched (settles_attempt ?_)
    simp only [Engine.matchText, Engine.matchKeyword, Engine.matchToken, Engine.matchEnd]
    split <;> trivial
  | pure | fail => exact settles_watched (settles_pure trivial)
  | map _ p ih | optional p ih | lookahead p ih =>
    refine settles_watched (settles_bind (ih hp c hcall) (fun reply new hopen => ?_)
      fun _ _ _ => ⟨_, rfl⟩)
    obtain ⟨_ | ⟨pos, _ | message⟩, reach⟩ := reply <;> exact settles_pure hopen
  | seq p q ihp ihq =>
    have hp := Bool.or_eq_false_iff.mp hp
    obtain ⟨hfirst, hsecond⟩ := forall_mem_append.mp hcall
    refine settles_watched (settles_andThen (ihp hp.1 c hfirst) fun f next => ?_)
    refine settles_bind (ihq hp.2 next hsecond) (fun reply new hopen => ?_) fun _ _ _ => ⟨_, rfl⟩
    obtain ⟨_ | ⟨pos, _ | message⟩, reach⟩ := reply <;> exact settles_pure hopen
  | alt p q ihp ihq =>
    have hp := Bool.or_eq_false_iff.mp hp
    obtain ⟨hfirst, hsecond⟩ := forall_mem_append.mp hcall
    refine settles_watched (settles_bind (ihp hp.1 c hfirst) (fun reply new hopen => ?_)
      fun _ _ _ => ⟨_, rfl⟩)
    obtain ⟨_ | ⟨pos, _ | message⟩, reach⟩ := reply
    · exact settles_pure trivial
    · refine settles_bind (ihq hp.2 c hsecond) (fun other new' hother => ?_) fun _ _ _ => ⟨_, rfl⟩
      obtain ⟨_ | ⟨pos, _ | message⟩, reach⟩ := other <;> exact settles_pure hother
    · exact hopen.elim
  | many p ih =>
    exact settles_watched (settles_repeated (fun _ _ _ => rfl) (fun c => ih hp c hcall) _ c)
  | many1 p ih =>
    have hmany := settles_watched (c := c) (settles_repeated (E := G.sessionRecorder rounds depth)
      (fun _ _ _ => rfl) (fun c => ih hp c hcall) rounds c)
    refine settles_watched (settles_bind hmany (fun reply new hopen => ?_) fun _ _ _ => ⟨_, rfl⟩)
    obtain ⟨⟨_ | ⟨value, values⟩, next⟩ | ⟨pos, _ | message⟩, reach⟩ := reply
    · refine settles_bind (ih hp c hcall) (fun first new' hfirst => ?_) fun _ _ _ => ⟨_, rfl⟩
      obtain ⟨_ | ⟨pos, _ | message⟩, reach⟩ := first <;> exact settles_pure hfirst
    · exact settles_pure trivial
    · exact settles_pure trivial
    · exact hopen.elim
  | sepBy p separator ihp ihs =>
    have hp := Bool.or_eq_false_iff.mp hp
    obtain ⟨hitem, hsep⟩ := forall_mem_append.mp hcall
    refine settles_watched (settles_bind (ihp hp.1 c hitem) (fun first new hopen => ?_)
      fun _ _ _ => ⟨_, rfl⟩)
    obtain ⟨⟨value, next⟩ | ⟨pos, _ | message⟩, reach⟩ := first
    · have hpair := fun c => settles_watched (c := c)
        (settles_andThen (ihs hp.2 c hsep) fun _ next => ihp hp.1 next hitem)
      have hothers := settles_watched (c := next) (settles_repeated
        (E := G.sessionRecorder rounds depth) (fun _ _ _ => rfl) hpair rounds next)
      refine settles_bind hothers (fun others new' hothers => ?_) fun _ _ _ => ⟨_, rfl⟩
      obtain ⟨_ | ⟨pos, _ | message⟩, reach⟩ := others <;> exact settles_pure hothers
    · exact settles_pure trivial
    · exact hopen.elim
  | notFollowedBy p name ih => cases hp
  | label p name ih =>
    refine settles_watched (settles_bind (ih hp c hcall) (fun reply new hopen => ?_)
      fun _ _ _ => ⟨_, rfl⟩)
    obtain ⟨_ | ⟨pos, _ | message⟩, reach⟩ := reply
    · exact settles_pure trivial
    · dsimp only
      split <;> exact settles_pure trivial
    · exact hopen.elim
  | commit p message ih =>
    refine settles_watched (settles_bind (ih hp c hcall) (fun reply new hopen => ?_)
      fun _ _ _ => ⟨_, rfl⟩)
    obtain ⟨_ | ⟨pos, _ | message⟩, reach⟩ := reply
    · exact settles_pure trivial
    · exact settles_closed
    · exact hopen.elim
  | probe mark p ih => exact settles_watched (settles_mark mark c.pos (ih hp c hcall))
  | call r => exact settles_watched (hcall r (mem_singleton_self r) c)

theorem settles_recalled {r : S.Rule} {x : Recorded (Session S) (Reply (S.Out r))}
    (hx : Settles [] x) : Settles [] (Session.recalled r pos x) := by
  intro hquiet base memory reply log memory' hmemory heq
  cases hget : memory.replies.get? (r, pos) with
  | some known =>
    rw [recalled_hit hget] at heq
    exact settles_pure (hmemory r pos known hget) hquiet base memory reply log memory' hmemory heq
  | none =>
    rw [recalled_miss hget] at heq
    obtain ⟨⟨⟨inner, middle⟩, memory₁⟩, hinner, hrest⟩ := Option.map_eq_some_iff.mp heq
    cases hrest
    obtain ⟨after, rfl, hsettled, hcalm⟩ :=
      hx hquiet base memory reply log memory₁ hmemory hinner
    exact ⟨after, rfl, hsettled, fun hopen => (hcalm hopen).remember hopen⟩

theorem recorder_settles (p : Parser S α) (hp : G.Throughout (·.negates = false) p) (c : Cursor) :
    Settles [] ((G.sessionRecorder rounds depth).record p c) := by
  induction depth generalizing α p c with
  | zero => exact record_settles p hp.1 c fun _ _ _ _ _ _ _ _ _ _ h => nomatch h
  | succ depth ih =>
    refine record_settles p hp.1 c fun r hr c' => ?_
    have hbody := ih (G.body r) (hp.body hr) c'
    unfold recordSessionRule
    split
    · exact settles_recalled hbody
    · exact hbody

/-- When a parser comes back with a final failure in a session, no parser is started any more and
the session ends with that failure. A session ends with a final failure only where a parser that
commits itself was reached and failed. -/
theorem session_final {p : Parser S α} (hp : G.Throughout (·.negates = false) p)
    (text : List Char) (pos : Nat) {reply : Reply α} {memory : Memory S}
    (h : G.session rounds depth p (Cursor.ofPos text pos) {} = some (reply, memory)) :
    ∃ events,
      (G.sessionRecorder rounds depth).record p (Cursor.ofPos text pos) [] {} =
        some ((reply, events), memory) ∧
      (∀ before after failed message,
        events = before ++ .stopped (some (failed, message)) :: after →
        (∀ event ∈ after, event.isStart = false) ∧
          reply.outcome = .failure failed (some message)) ∧
      ∀ failed message, reply.outcome = .failure failed (some message) →
        .closed failed message ∈ events := by
  have herases : Erases ((G.sessionRecorder rounds depth).record p (Cursor.ofPos text pos)) _ :=
    sessionRecorder_erasure.record p (Cursor.ofPos text pos)
  have hplain := (congrFun (herases []) {}).trans h
  obtain ⟨⟨⟨recorded, events⟩, memory'⟩, hrecord, hfst⟩ := Option.bind_eq_some_iff.mp hplain
  obtain ⟨rfl, rfl⟩ : recorded = reply ∧ memory' = memory := by simpa using hfst
  have hquiet : Quiet [] := fun _ h => nomatch h
  obtain ⟨after, rfl, hsettled, -⟩ := recorder_settles p hp _ hquiet [] {} recorded events memory'
    Memory.all_empty hrecord
  refine ⟨_, hrecord, fun before after' failed message hsplit => ?_, fun failed message heq => ?_⟩
  · obtain ⟨outcome, reach⟩ := recorded
    have hloud : ¬ Quiet events := fun hquiet =>
      hquiet _ (hsplit ▸ mem_append_right _ mem_cons_self) _ rfl
    obtain ⟨value, next⟩ | ⟨pos, _ | message⟩ := outcome
    · exact absurd hsettled hloud
    · exact absurd hsettled hloud
    · obtain ⟨hstarts, rfl, rfl⟩ := Falls.of_split hsettled hsplit
      exact ⟨hstarts, rfl⟩
  · obtain ⟨outcome, reach⟩ := recorded
    cases heq
    obtain ⟨before, after, rfl, -, hclosed, -⟩ := hsettled
    exact mem_append_left _ hclosed

/-- One rule that is remembered: a letter in any number of brackets, each of which must be closed. -/
def closedBrackets : Grammar ⟨Unit, fun _ => String⟩ where
  body _ := .alt (.seq (.map (fun _ => id) (.text ['('] "'('"))
      (.commit (.seq (.map (fun letter _ => letter) (.call ())) (.text [')'] "')'")) "unclosed bracket"))
    (.text ['x'] "'x'")
  memoised _ := true

/-- The inner one of two brackets is not closed. -/
theorem session_final_brackets :
    ∃ reply memory, closedBrackets.session 5 5 (.optional (.call ()))
        (Cursor.ofPos "((x]".toList 0) {} = some (reply, memory) ∧
      reply.outcome = .failure 3 (some "unclosed bracket") ∧
      ∃ events, (closedBrackets.sessionRecorder 5 5).record (.optional (.call ()))
        (Cursor.ofPos "((x]".toList 0) [] {} = some ((reply, events), memory) ∧
      (∀ before after failed message,
        events = before ++ .stopped (some (failed, message)) :: after →
        (∀ event ∈ after, event.isStart = false) ∧
          reply.outcome = .failure failed (some message)) ∧
      ∀ failed message, reply.outcome = .failure failed (some message) →
        .closed failed message ∈ events := by
  have hplain : closedBrackets.eval 5 5 (.optional (.call ()))
      (Cursor.ofPos "((x]".toList 0) = some _ := rfl
  obtain ⟨memory, hsession⟩ := session_of_eval hplain
  have hnegates : closedBrackets.Throughout (·.negates = false) (.optional (.call ())) :=
    throughout_of_bodies rfl fun _ => rfl
  exact ⟨_, memory, hsession, rfl, session_final hnegates "((x]".toList 0 hsession⟩

end Grammar
end AgentLang.Parse
