import AgentLang.Proofs.Parse.Parts
import AgentLang.Proofs.Parse.Reach
import AgentLang.Proofs.Parse.Record
import AgentLang.Proofs.Parse.Yield

/-!
# Failures are reported exactly

Terminals fail at many places while a parser runs, also where it turns back and where it succeeds in
the end. Its reply tells the furthest of these places and everything that was missed there, no more
and no less, unless a parser hides what its part has tried. A list with separators would lose what
came before a final failure of an element, so its elements must not commit themselves.
-/

namespace AgentLang.Parse

variable {S : Signature} {α β : Type}

/-- Whether the parser makes failures final by itself. -/
def Parser.commits : {α : Type} → Parser S α → Bool
  | _, .map _ p => p.commits
  | _, .seq p q => p.commits || q.commits
  | _, .alt p q => p.commits || q.commits
  | _, .optional p => p.commits
  | _, .many p => p.commits
  | _, .many1 p => p.commits
  | _, .sepBy p separator => p.commits || separator.commits
  | _, .lookahead p => p.commits
  | _, .notFollowedBy p _ => p.commits
  | _, .label p _ => p.commits
  | _, .commit _ _ => true
  | _, .probe _ p => p.commits
  | _, _ => false

namespace Grammar

variable {G : Grammar S} {rounds depth : Nat}

/-! ### Parsers that do not commit themselves -/

theorem repeated_failure {E : Engine S Option} (hexhausted : ∀ α, E.exhausted (α := α) = none)
    {step : Cursor → Option (Reply α)}
    (h : E.repeated step k c = some ⟨.failure pos committed, reach⟩) :
    ∃ c message reach, step c = some ⟨.failure pos (some message), reach⟩ := by
  induction k generalizing c reach with
  | zero => exact nomatch (hexhausted _).symm.trans h
  | succ k ih =>
    obtain ⟨reply, hreply, hrest⟩ := Option.bind_eq_some_iff.mp h
    obtain ⟨⟨value, next⟩ | ⟨pos, _ | message⟩, reach⟩ := reply
    · dsimp only at hrest
      split at hrest
      · exact nomatch hrest
      · obtain ⟨others, hothers, hrest⟩ := Option.bind_eq_some_iff.mp hrest
        obtain ⟨_ | ⟨pos, committed⟩, reach⟩ := others
        · exact nomatch hrest
        · cases hrest
          exact ih hothers
    · exact nomatch hrest
    · cases hrest
      exact ⟨c, message, reach, hreply⟩

theorem repeated_succeeds {E : Engine S Option} (hexhausted : ∀ α, E.exhausted (α := α) = none)
    {step : Cursor → Option (Reply α)} (hstep : ∀ c, Results α (step c) Reply.Open)
    {reply : Reply (List α)} (h : E.repeated step k c = some reply) :
    ∃ values next reach, reply = ⟨.success values next, reach⟩ := by
  obtain ⟨⟨values, next⟩ | ⟨pos, committed⟩, reach⟩ := reply
  · exact ⟨values, next, reach, rfl⟩
  · obtain ⟨c, message, reach, hfails⟩ := repeated_failure hexhausted h
    exact (hstep c _ hfails).elim

theorem andThen_open (hx : Results α x Reply.Open)
    (hf : ∀ value next, Results β (f value next) Reply.Open) :
    Results β (Engine.andThen x f) Reply.Open := by
  refine results_bind fun reply hreply => ?_
  have hfirst := hx reply hreply
  obtain ⟨⟨value, next⟩ | ⟨pos, _ | message⟩, reach⟩ := reply
  · exact results_bind fun other hother => results_pure (hf value next other hother)
  · exact results_pure trivial
  · exact hfirst.elim

theorem run_open (p : Parser S α) (hp : p.commits = false) (c : Cursor)
    (hcall : ∀ r ∈ p.rules, ∀ c, Results _ (G.evalRule rounds depth r c) Reply.Open) :
    Results α ((G.plain rounds depth).run p c) Reply.Open := by
  induction p generalizing c with
  | text | keyword | token | eof =>
    refine results_pure ?_
    simp only [Engine.matchText, Engine.matchKeyword, Engine.matchToken, Engine.matchEnd]
    split <;> trivial
  | pure | fail => exact results_pure trivial
  | map _ p ih | optional p ih | lookahead p ih =>
    refine results_bind fun reply hreply => ?_
    have hopen := ih hp c hcall reply hreply
    obtain ⟨_ | ⟨pos, _ | message⟩, reach⟩ := reply <;> exact results_pure hopen
  | seq p q ihp ihq =>
    have hp := Bool.or_eq_false_iff.mp hp
    obtain ⟨hfirst, hsecond⟩ := List.forall_mem_append.mp hcall
    refine andThen_open (ihp hp.1 c hfirst) fun f next => ?_
    refine results_bind fun reply hreply => results_pure ?_
    have hopen := ihq hp.2 next hsecond reply hreply
    obtain ⟨_ | ⟨pos, _ | message⟩, reach⟩ := reply <;> exact hopen
  | alt p q ihp ihq =>
    have hp := Bool.or_eq_false_iff.mp hp
    obtain ⟨hfirst, hsecond⟩ := List.forall_mem_append.mp hcall
    refine results_bind fun reply hreply => ?_
    have hopen := ihp hp.1 c hfirst reply hreply
    obtain ⟨_ | ⟨pos, _ | message⟩, reach⟩ := reply
    · exact results_pure hopen
    · refine results_bind fun other hother => ?_
      have hopen := ihq hp.2 c hsecond other hother
      obtain ⟨_ | ⟨pos, _ | message⟩, reach⟩ := other <;> exact results_pure hopen
    · exact hopen.elim
  | many p ih =>
    intro reply hreply
    obtain ⟨values, next, reach, rfl⟩ :=
      repeated_succeeds (fun _ => rfl) (fun c => ih hp c hcall) hreply
    trivial
  | many1 p ih =>
    refine results_bind fun reply hreply => ?_
    obtain ⟨_ | ⟨value, values⟩, next, reach, rfl⟩ :=
      repeated_succeeds (fun _ => rfl) (fun c => ih hp c hcall) hreply
    · refine results_bind fun first hfirst => ?_
      have hopen := ih hp c hcall first hfirst
      obtain ⟨_ | ⟨pos, _ | message⟩, reach⟩ := first <;> exact results_pure hopen
    · exact results_pure trivial
  | sepBy p separator ihp ihs =>
    have hp := Bool.or_eq_false_iff.mp hp
    obtain ⟨hitem, hsep⟩ := List.forall_mem_append.mp hcall
    refine results_bind fun first hfirst => ?_
    have hopen := ihp hp.1 c hitem first hfirst
    obtain ⟨⟨value, next⟩ | ⟨pos, _ | message⟩, reach⟩ := first
    · refine results_bind fun others hothers => ?_
      obtain ⟨values, last, reach, rfl⟩ := repeated_succeeds (fun _ => rfl)
        (fun c => andThen_open (ihs hp.2 c hsep) fun _ next => ihp hp.1 next hitem) hothers
      exact results_pure trivial
    · exact results_pure trivial
    · exact hopen.elim
  | notFollowedBy p name ih =>
    refine results_bind fun reply hreply => ?_
    split <;> exact results_pure trivial
  | label p name ih =>
    refine results_bind fun reply hreply => ?_
    have hopen := ih hp c hcall reply hreply
    split
    · split
      · exact results_pure trivial
      · exact results_pure hopen
    · exact results_pure hopen
  | commit p message ih => cases hp
  | probe mark p ih => exact ih hp c hcall
  | call r => exact hcall r (List.mem_singleton_self r) c

theorem eval_open (p : Parser S α) (hp : G.Throughout (·.commits = false) p) (c : Cursor) :
    Results α ((G.plain rounds depth).run p c) Reply.Open := by
  induction depth generalizing α p c with
  | zero => exact run_open p hp.1 c fun _ _ _ _ h => nomatch h
  | succ depth ih => exact run_open p hp.1 c fun r hr c' => ih (G.body r) (hp.body hr) c'

end Grammar

/-! ### What a record says about the reply -/

namespace Recorded

/-- The reply of a recorded run, and the record when the run has gone on from `before`. -/
def Records (before : List Event) (x : Recorded Option (Reply α))
    (post : Reply α → List Event → Prop) : Prop :=
  ∀ base reply log, x (base ++ before) = some (reply, log) →
    ∃ after, log = base ++ after ∧ post reply after

variable {before : List Event} {x : Recorded Option (Reply α)}
  {post : Reply α → List Event → Prop}

theorem records_pure (h : post reply before) : Records before (pure reply) post := by
  intro base reply' log heq
  cases heq
  exact ⟨before, rfl, h⟩

theorem records_emit (hx : Records (before ++ [event]) x post) :
    Records before (emit event >>= fun _ => x) post := by
  intro base reply log heq
  refine hx base reply log ?_
  rw [← List.append_assoc]
  exact heq

theorem records_bind (hx : Records [] x post)
    (hf : ∀ reply new, post reply new → Records (before ++ new) (f reply) post') :
    Records before (x >>= f) post' := by
  intro base reply log heq
  obtain ⟨⟨first, middle⟩, hfirst, hsecond⟩ := Option.bind_eq_some_iff.mp heq
  rw [← List.append_nil (base ++ before)] at hfirst
  obtain ⟨new, rfl, hpost⟩ := hx _ first middle hfirst
  refine hf first new hpost base reply log ?_
  rw [← List.append_assoc]
  exact hsecond

/-- What is known of the reply without the record. -/
theorem Records.and (hx : Records before x post) (hy : Erases x y) :
    Records before x fun reply after => post reply after ∧ y = some reply := by
  intro base reply log heq
  obtain ⟨after, hlog, hpost⟩ := hx base reply log heq
  refine ⟨after, hlog, hpost, ?_⟩
  rw [← hy (base ++ before), heq]
  rfl

end Recorded

/-- The failed terminals of a record. -/
def misses (events : List Event) : List (Nat × String) :=
  events.filterMap Event.miss?

theorem misses_append (events events' : List Event) :
    misses (events ++ events') = misses events ++ misses events' :=
  List.filterMap_append

theorem misses_singleton (h : event.miss? = none) : misses [event] = [] := by
  rw [misses, List.filterMap_cons_none h, List.filterMap_nil]

/-- The reply tells the furthest failures of the record. -/
def Reply.Exact (reply : Reply α) (events : List Event) : Prop :=
  reply.reach.Furthest (misses events)

theorem Reply.Exact.after {reply : Reply α} (hearlier : earlier.Furthest (misses events))
    (h : reply.Exact events') : (reply.after earlier).Exact (events ++ events') := by
  unfold Reply.Exact
  rw [misses_append]
  exact hearlier.join h

namespace Recorded

theorem watched_exact (hx : Records [] x Reply.Exact) : Records [] (watched c x) Reply.Exact := by
  refine records_emit (records_bind hx fun reply new hreply => records_emit (records_pure ?_))
  unfold Reply.Exact
  rw [misses_append, misses_append, misses_singleton rfl, List.append_nil]
  exact hreply

theorem attempt_exact (pos : Nat) {reply : Reply α}
    (h : (∃ value next, reply = .succeed value next) ∨ reply = .miss pos name) :
    Records [] (attempt name reply) Reply.Exact := by
  rcases h with ⟨value, next, rfl⟩ | rfl
  · exact records_pure rfl
  · exact records_emit (records_pure (Reach.furthest_missed pos name))

theorem andThen_exact {x : Recorded Option (Reply α)}
    {f : α → Cursor → Recorded Option (Reply β)} (hx : Records [] x Reply.Exact)
    (hf : ∀ value next, Records [] (f value next) Reply.Exact) :
    Records [] (Engine.andThen x f) Reply.Exact := by
  refine records_bind hx fun reply new hreply => ?_
  obtain ⟨⟨value, next⟩ | ⟨pos, committed⟩, reach⟩ := reply
  · exact records_bind (hf value next) fun other new' hother => records_pure (hother.after hreply)
  · exact records_pure hreply

theorem repeated_exact {E : Engine S (Recorded Option)}
    (hexhausted : ∀ α log, E.exhausted (α := α) log = none)
    {step : Cursor → Recorded Option (Reply α)} (hstep : ∀ c, Records [] (step c) Reply.Exact)
    (k : Nat) (c : Cursor) : Records [] (E.repeated step k c) Reply.Exact := by
  induction k generalizing c with
  | zero => exact fun _ _ _ h => nomatch (hexhausted _ _).symm.trans h
  | succ k ih =>
    refine records_bind (hstep c) fun reply new hreply => ?_
    obtain ⟨⟨value, next⟩ | ⟨pos, _ | message⟩, reach⟩ := reply
    · dsimp only
      split
      · exact records_pure hreply
      · refine records_bind (ih next) fun others new' hothers => records_pure ?_
        have hmap : (others.map (value :: ·)).Exact new' := hothers
        exact hmap.after hreply
    · exact records_pure hreply
    · exact records_pure hreply

end Recorded

/-! ### Exact parsers -/

namespace Grammar

open Recorded

variable {G : Grammar S} {rounds depth : Nat}

theorem repeated_nil_reach {E : Engine S Option} (hexhausted : ∀ α, E.exhausted (α := α) = none)
    {step : Cursor → Option (Reply α)} (h : E.repeated step k c = some ⟨.success [] next, reach⟩) :
    ∃ outcome, step c = some ⟨outcome, reach⟩ := by
  cases k with
  | zero => exact nomatch (hexhausted _).symm.trans h
  | succ k =>
    obtain ⟨reply, hreply, hrest⟩ := Option.bind_eq_some_iff.mp h
    obtain ⟨⟨value, next⟩ | ⟨pos, _ | message⟩, reach⟩ := reply
    · dsimp only at hrest
      split at hrest
      · cases hrest
        exact ⟨_, hreply⟩
      · obtain ⟨others, -, hothers⟩ := Option.bind_eq_some_iff.mp hrest
        obtain ⟨_ | ⟨pos, committed⟩, reach⟩ := others <;> cases hothers
    · cases hrest
      exact ⟨_, hreply⟩
    · exact nomatch hrest

end Grammar

/-- The parser keeps all that its parts find out. -/
def Parser.Reports (G : Grammar S) : {α : Type} → Parser S α → Prop
  | _, .map _ p => p.Reports G
  | _, .seq p q => p.Reports G ∧ q.Reports G
  | _, .alt p q => p.Reports G ∧ q.Reports G
  | _, .optional p => p.Reports G
  | _, .many p => p.Reports G
  | _, .many1 p => p.Reports G
  | _, .sepBy p separator => (p.Reports G ∧ G.Throughout (·.commits = false) p) ∧
      separator.Reports G ∧ G.Throughout (·.commits = false) separator
  | _, .lookahead _ => False
  | _, .notFollowedBy _ _ => False
  | _, .label _ _ => False
  | _, .commit p _ => p.Reports G
  | _, .probe _ p => p.Reports G
  | _, _ => True

namespace Grammar

open Recorded

variable {G : Grammar S} {rounds depth : Nat}

theorem record_exact (p : Parser S α) (hp : p.Reports G) (c : Cursor)
    (hcall : ∀ r ∈ p.rules, ∀ c, Records [] (G.recordRule rounds depth r c) Reply.Exact) :
    Records [] ((G.recorder rounds depth).record p c) Reply.Exact := by
  induction p generalizing c with
  | text | keyword | token | eof =>
    refine watched_exact (attempt_exact c.pos ?_)
    simp only [Engine.matchText, Engine.matchKeyword, Engine.matchToken, Engine.matchEnd]
    split <;> simp
  | pure | fail => exact watched_exact (records_pure rfl)
  | map _ p ih | optional p ih =>
    refine watched_exact (records_bind (ih hp c hcall) fun reply new hreply => ?_)
    obtain ⟨_ | ⟨pos, _ | message⟩, reach⟩ := reply <;> exact records_pure hreply
  | seq p q ihp ihq =>
    obtain ⟨hfirst, hsecond⟩ := List.forall_mem_append.mp hcall
    refine watched_exact (andThen_exact (ihp hp.1 c hfirst) fun f next => ?_)
    exact records_bind (ihq hp.2 next hsecond) fun reply new hreply => records_pure hreply
  | alt p q ihp ihq =>
    obtain ⟨hfirst, hsecond⟩ := List.forall_mem_append.mp hcall
    refine watched_exact (records_bind (ihp hp.1 c hfirst) fun reply new hreply => ?_)
    obtain ⟨_ | ⟨pos, _ | message⟩, reach⟩ := reply
    · exact records_pure hreply
    · refine records_bind (ihq hp.2 c hsecond) fun other new' hother => ?_
      have hboth := hother.after hreply
      obtain ⟨_ | ⟨pos, _ | message⟩, reach⟩ := other <;> exact records_pure hboth
    · exact records_pure hreply
  | many p ih =>
    exact watched_exact (repeated_exact (fun _ _ => rfl) (fun c => ih hp c hcall) _ c)
  | many1 p ih =>
    have herasure : Erasure (G.recorder rounds depth) (G.plain rounds depth) := recorder_erasure
    have hrun := fun c => herasure.record p c
    have hmany := (watched_exact (c := c) (repeated_exact (E := G.recorder rounds depth)
      (fun _ _ => rfl) (fun c => ih hp c hcall) rounds c)).and
        (erases_watched (herasure.repeated hrun rounds c))
    refine watched_exact (records_bind hmany fun reply new hboth => ?_)
    obtain ⟨hreply, hplain⟩ := hboth
    obtain ⟨⟨_ | ⟨value, values⟩, next⟩ | ⟨pos, committed⟩, reach⟩ := reply
    · -- The first step of the repetition is taken once more and reaches as far as before.
      obtain ⟨outcome, hstep⟩ := repeated_nil_reach (fun _ => rfl) hplain
      refine records_bind ((ih hp c hcall).and (hrun c)) fun first new' hboth => ?_
      obtain ⟨hfirst, hagain⟩ := hboth
      obtain rfl := Option.some.inj (hstep.symm.trans hagain)
      have hboth : reach.Furthest (misses (new ++ new')) := by
        rw [misses_append]
        exact Reach.Furthest.append hreply hfirst
      cases outcome <;> exact records_pure hboth
    · exact records_pure hreply
    · exact records_pure hreply
  | sepBy p separator ihp ihs =>
    obtain ⟨hitem, hsep⟩ := List.forall_mem_append.mp hcall
    have herasure : Erasure (G.recorder rounds depth) (G.plain rounds depth) := recorder_erasure
    obtain ⟨⟨hp, hopen⟩, hs, hopen'⟩ := hp
    refine watched_exact (records_bind (ihp hp c hitem) fun first new hfirst => ?_)
    obtain ⟨⟨value, next⟩ | ⟨pos, _ | message⟩, reach⟩ := first
    · have hpair := fun c => watched_exact (c := c)
        (andThen_exact (ihs hs c hsep) fun _ next => ihp hp next hitem)
      have hothers := (watched_exact (c := next)
        (repeated_exact (E := G.recorder rounds depth) (fun _ _ => rfl) hpair rounds next)).and
          (erases_watched (herasure.repeated (fun c => erases_watched (Erasure.andThen
            (herasure.record separator c) fun _ next => herasure.record p next)) rounds next))
      refine records_bind hothers fun others new' hboth => ?_
      obtain ⟨hothers, hplain⟩ := hboth
      obtain ⟨values, last, reach', rfl⟩ := repeated_succeeds (fun _ => rfl)
        (fun c => andThen_open (eval_open separator hopen' c) fun _ next => eval_open p hopen next)
        hplain
      exact records_pure (hothers.after hfirst)
    · exact records_pure hfirst
    · exact records_pure hfirst
  | lookahead | notFollowedBy | label => exact hp.elim
  | commit p message ih =>
    refine watched_exact (records_bind (ih hp c hcall) fun reply new hreply => ?_)
    obtain ⟨_ | ⟨pos, _ | message⟩, reach⟩ := reply
    · exact records_pure hreply
    · refine records_emit (records_pure ?_)
      unfold Reply.Exact
      rw [misses_append, misses_singleton rfl, List.append_nil]
      exact hreply
    · exact records_pure hreply
  | probe mark p ih => exact watched_exact (ih hp c hcall)
  | call r => exact watched_exact (hcall r (List.mem_singleton_self r) c)

theorem recorder_exact (p : Parser S α) (hp : G.Throughout (fun p => p.Reports G) p) (c : Cursor) :
    Records [] ((G.recorder rounds depth).record p c) Reply.Exact := by
  induction depth generalizing α p c with
  | zero => exact record_exact p hp.1 c fun _ _ _ _ _ _ h => nomatch h
  | succ depth ih => exact record_exact p hp.1 c fun r hr c' => ih (G.body r) (hp.body hr) c'

variable [DecidableEq S.Rule] [Hashable S.Rule]

/-- The reply of a session is the one of a run in which everything remembered is read again, and it
tells exactly the furthest place at which a terminal fails there and all that is missed at it. -/
theorem session_reports_exactly {p : Parser S α} (hp : G.Throughout (fun p => p.Reports G) p)
    (text : List Char) (pos : Nat) {reply : Reply α} {memory : Memory S}
    (h : G.session rounds depth p (Cursor.ofPos text pos) {} = some (reply, memory)) :
    ∃ depth' events,
      (G.recorder rounds depth').record p (Cursor.ofPos text pos) [] = some (reply, events) ∧
      reply.reach.Furthest (misses events) := by
  obtain ⟨-, least, hleast⟩ := eval_of_session (Cursor.on_ofPos text pos) faithful_empty h
  have hplain := hleast least (Nat.le_refl _)
  have herases : Erases ((G.recorder rounds least).record p (Cursor.ofPos text pos)) _ :=
    recorder_erasure.record p (Cursor.ofPos text pos)
  obtain ⟨⟨recorded, events⟩, hrecord, hfst⟩ :=
    Option.map_eq_some_iff.mp ((herases []).trans hplain)
  obtain rfl : recorded = reply := hfst
  obtain ⟨after, rfl, hexact⟩ := recorder_exact p hp _ [] recorded events hrecord
  exact ⟨least, _, hrecord, hexact⟩

/-- The letter is missing in three brackets, and so is a fourth bracket. -/
theorem session_reports_exactly_brackets :
    ∃ reply memory, brackets.session 5 5 (.call ()) (Cursor.ofPos "(((y".toList 0) {} =
      some (reply, memory) ∧ reply.reach.pos? = some 3 ∧
      ∃ depth events, (brackets.recorder 5 depth).record (.call ())
        (Cursor.ofPos "(((y".toList 0) [] = some (reply, events) ∧
        reply.reach.Furthest (misses events) := by
  have hplain : brackets.eval 5 5 (.call ()) (Cursor.ofPos "(((y".toList 0) = some _ := rfl
  obtain ⟨memory, hsession⟩ := session_of_eval hplain
  have hreports : brackets.Throughout (fun p => p.Reports brackets) (.call ()) :=
    throughout_of_bodies trivial fun _ => by simp [brackets, Parser.between, Parser.Reports,
      SeqRight.seqRight, SeqLeft.seqLeft, Functor.map]
  exact ⟨_, memory, hsession, rfl, session_reports_exactly hreports "(((y".toList 0 hsession⟩

end Grammar
end AgentLang.Parse
