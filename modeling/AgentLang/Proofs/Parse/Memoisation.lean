import AgentLang.Proofs.Parse.Session

/-!
# Memoisation

What is remembered during a session are plain replies. A session that starts with such a memory
therefore gives plain replies and keeps its memory faithful, through backtracking, lookahead and
committed failures alike.

A rule that is read at a position is not read there again. While it is being read this follows from
the depth that its plain reply needs: what is called on the way needs less. Afterwards the reply is
remembered.
-/

namespace AgentLang.Parse.Grammar

variable {S : Signature} [DecidableEq S.Rule] [Hashable S.Rule] {α : Type} {G : Grammar S}
  {text : List Char} {rounds depth : Nat} {memory : Memory S}

/-! ### Faithful memories -/

/-- Every remembered reply is the plain reply of its rule at its position. -/
def Faithful (G : Grammar S) (text : List Char) (rounds : Nat) (memory : Memory S) : Prop :=
  memory.All fun r pos reply =>
    ∃ depth, G.evalRule rounds depth r (Cursor.ofPos text pos) = some reply

theorem faithful_empty : Faithful G text rounds {} := Memory.all_empty

/-! ### Replies of a session are plain -/

/-- From a faithful memory the session gives a reply that is plain at every sufficient depth. -/
def Recalls (G : Grammar S) (text : List Char) (rounds : Nat) (α : Type)
    (x : Session S (Reply α)) (y : ReaderT Nat Option (Reply α)) : Prop :=
  ∀ memory, Faithful G text rounds memory → ∀ reply after, x memory = some (reply, after) →
    reply.Ends (·.On text) ∧ Faithful G text rounds after ∧
      ∃ least, ∀ depth ≥ least, y depth = some reply

theorem recalls_bind (hxy : Recalls G text rounds α x y)
    (hfg : ∀ reply, reply.Ends (·.On text) → Recalls G text rounds β (f reply) (g reply)) :
    Recalls G text rounds β (x >>= f) (y >>= g) := by
  intro memory hm reply after h
  obtain ⟨⟨first, middle⟩, hx, hf⟩ := Option.bind_eq_some_iff.mp h
  obtain ⟨hends, hmiddle, least₁, h₁⟩ := hxy memory hm first middle hx
  obtain ⟨hends', hafter, least₂, h₂⟩ := hfg first hends middle hmiddle reply after hf
  refine ⟨hends', hafter, max least₁ least₂, fun depth hd => ?_⟩
  exact Option.bind_eq_some_iff.mpr ⟨first, h₁ depth (by omega), h₂ depth (by omega)⟩

theorem recalls_simulation
    (hcall : ∀ r c, c.On text →
      Recalls G text rounds _ (G.sessionRule rounds depth r c) ((G.unbounded rounds).call r c)) :
    Simulation (Cursor.On text) (fun _ => True) (Recalls G text rounds)
      (G.remembering rounds depth) (G.unbounded rounds) where
  steady := Cursor.steady_on text
  pure reply hends memory hm reply' after h := by
    cases h
    exact ⟨hends, hm, 0, fun _ _ => rfl⟩
  bind := recalls_bind
  mark pos _ h memory hm reply after heq := by
    rw [Session.mark_bind] at heq
    exact h _ (hm.note _ pos) reply after heq
  exhausted _ _ _ _ _ h := nomatch h
  rounds := Nat.le_refl _
  call := hcall

theorem sessionRule_recalls (r : S.Rule) (c : Cursor) (hc : c.On text) :
    Recalls G text rounds _ (G.sessionRule rounds depth r c) ((G.unbounded rounds).call r c) := by
  induction depth generalizing r c with
  | zero => exact fun _ _ _ _ h => nomatch h
  | succ depth ih =>
    have hbody := (recalls_simulation ih).run (G.body r) hc fun _ _ => trivial
    have hplain : ∀ {reply : Reply (S.Out r)} {least : Nat},
        (∀ depth ≥ least, (G.unbounded rounds).run (G.body r) c depth = some reply) →
        ∀ depth ≥ least + 1, G.evalRule rounds depth r c = some reply := by
      intro reply least h depth hd
      obtain ⟨depth, rfl⟩ : ∃ d, depth = d + 1 := ⟨depth - 1, by omega⟩
      exact eval_of_unbounded (h depth (by omega))
    intro memory hm reply after h
    rw [sessionRule_succ] at h
    split at h
    next =>
      cases hget : memory.replies.get? (r, c.pos) with
      | some known =>
        rw [Session.remembered_hit hget] at h
        cases h
        obtain ⟨known, hknown⟩ := hm r c.pos reply hget
        rw [← hc] at hknown
        exact ⟨evalRule_ends hc hknown, hm, known, fun _ hd =>
          evalRule_mono (Nat.le_refl _) hd hknown⟩
      | none =>
        rw [Session.remembered_miss hget] at h
        obtain ⟨⟨reply, middle⟩, hrun, heq⟩ := Option.map_eq_some_iff.mp h
        cases heq
        obtain ⟨hends, hmiddle, least, hleast⟩ := hbody memory hm reply middle hrun
        have hreply := hplain hleast
        have hknown : G.evalRule rounds (least + 1) r (Cursor.ofPos text c.pos) = some reply := by
          rw [← hc]
          exact hreply _ (Nat.le_refl _)
        exact ⟨hends, hmiddle.remember ⟨_, hknown⟩, least + 1, hreply⟩
    next =>
      obtain ⟨hends, hafter, least, hleast⟩ := hbody memory hm reply after h
      exact ⟨hends, hafter, least + 1, hplain hleast⟩

/-- A reply in a session with a faithful memory is the plain reply. -/
theorem eval_of_session (hc : c.On text) (hm : Faithful G text rounds memory)
    (h : G.session rounds depth p c memory = some (reply, after)) :
    Faithful G text rounds after ∧
      ∃ least, ∀ depth ≥ least, G.eval rounds depth p c = some reply := by
  have hsim : Simulation _ _ (Recalls G text rounds) (G.remembering rounds depth)
      (G.unbounded rounds) :=
    recalls_simulation fun r c hc => sessionRule_recalls r c hc
  obtain ⟨-, hafter, least, hleast⟩ :=
    hsim.run p hc (fun _ _ => trivial) memory hm reply after h
  exact ⟨hafter, least, fun depth hd => eval_of_unbounded (hleast depth hd)⟩

/-! ### Plain replies in a session, and what is read on the way -/

section Watched

variable {watched : S.Rule → String → Prop}

/-- How a memory grows while replies within a depth are computed. The mark of a watched rule is left
at most once, where no reply was known before and one is known afterwards. -/
structure Grown (G : Grammar S) (text : List Char) (rounds : Nat) (watched : S.Rule → String → Prop)
    (depth : Nat) (before after : Memory S) (new : List (String × Nat)) : Prop where
  kept : ∀ key, key ∈ before.replies → key ∈ after.replies
  log : after.log = new ++ before.log
  once : ∀ {r mark}, watched r mark → ∀ pos, new.count (mark, pos) ≤ 1
  unknown : ∀ {r mark}, watched r mark → ∀ pos, (mark, pos) ∈ new → (r, pos) ∉ before.replies
  known : ∀ {r mark}, watched r mark → ∀ pos, (mark, pos) ∈ new → (r, pos) ∈ after.replies
  within : ∀ {r mark}, watched r mark → ∀ pos, (mark, pos) ∈ new →
    G.evalRule rounds depth r (Cursor.ofPos text pos) ≠ none

variable {before middle after : Memory S} {new new' : List (String × Nat)} {depth' : Nat}

theorem Grown.refl : Grown G text rounds watched depth before before [] where
  kept _ := id
  log := rfl
  once _ _ := Nat.zero_le _
  unknown _ _ h := nomatch h
  known _ _ h := nomatch h
  within _ _ h := nomatch h

theorem Grown.trans (h₁ : Grown G text rounds watched depth before middle new)
    (h₂ : Grown G text rounds watched depth middle after new') :
    Grown G text rounds watched depth before after (new' ++ new) where
  kept key hk := h₂.kept key (h₁.kept key hk)
  log := by rw [h₂.log, h₁.log, List.append_assoc]
  once {r mark} hw pos := by
    -- a mark in both parts would be of a reply known in the middle, and unknown there
    have hnot : (mark, pos) ∉ new' ∨ (mark, pos) ∉ new := by
      by_cases hn : (mark, pos) ∈ new
      · exact .inl fun hn' => h₂.unknown hw pos hn' (h₁.known hw pos hn)
      · exact .inr hn
    rw [List.count_append]
    rcases hnot with hn | hn
    · simpa [List.count_eq_zero_of_not_mem hn] using h₁.once hw pos
    · simpa [List.count_eq_zero_of_not_mem hn] using h₂.once hw pos
  unknown hw pos hn hb := by
    rcases List.mem_append.mp hn with hn | hn
    · exact h₂.unknown hw pos hn (h₁.kept _ hb)
    · exact h₁.unknown hw pos hn hb
  known hw pos hn := by
    rcases List.mem_append.mp hn with hn | hn
    · exact h₂.known hw pos hn
    · exact h₂.kept _ (h₁.known hw pos hn)
  within hw pos hn := by
    rcases List.mem_append.mp hn with hn | hn
    · exact h₂.within hw pos hn
    · exact h₁.within hw pos hn

theorem Grown.mono (h : Grown G text rounds watched depth before after new) (hd : depth ≤ depth') :
    Grown G text rounds watched depth' before after new :=
  { h with within := fun hw pos hn => evalRule_ne_none_mono hd (h.within hw pos hn) }

theorem Grown.note (hname : ∀ r, ¬watched r name) (pos : Nat) :
    Grown G text rounds watched depth before (before.note name pos) [(name, pos)] := by
  have habsent : ∀ {r mark}, watched r mark → ∀ p, (mark, p) ∉ [(name, pos)] := by
    intro r mark hw p hmem
    obtain ⟨rfl, -⟩ : mark = name ∧ p = pos := by simpa using hmem
    exact hname r hw
  exact {
    kept := fun _ => id
    log := rfl
    once := fun hw p => by simp [List.count_eq_zero_of_not_mem (habsent hw p)]
    unknown := fun hw p h => absurd h (habsent hw p)
    known := fun hw p h => absurd h (habsent hw p)
    within := fun hw p h => absurd h (habsent hw p) }

theorem mem_remember :
    key ∈ (memory.remember r pos reply).replies ↔ key = (r, pos) ∨ key ∈ memory.replies := by
  rw [Memory.remember, Std.DHashMap.mem_insert, beq_iff_eq, eq_comm]

theorem Grown.remember (h : Grown G text rounds watched depth before after new) (r : S.Rule)
    (pos : Nat) (reply : Reply (S.Out r)) :
    Grown G text rounds watched depth before (after.remember r pos reply) new :=
  { h with
    kept := fun key hk => mem_remember.mpr (.inr (h.kept key hk))
    known := fun hw p hn => mem_remember.mpr (.inr (h.known hw p hn)) }

/-- A watched rule is read: its mark is left, its body is run within a depth that does not suffice
for the rule itself, and its reply is remembered. -/
theorem Grown.read (hW : Watching G watched) (hr : watched r mark)
    (hunknown : (r, pos) ∉ before.replies)
    (hless : G.evalRule rounds depth r (Cursor.ofPos text pos) = none)
    (henough : G.evalRule rounds depth' r (Cursor.ofPos text pos) ≠ none) (hd : depth ≤ depth')
    (h : Grown G text rounds watched depth (before.note mark pos) after new)
    (reply : Reply (S.Out r)) :
    Grown G text rounds watched depth' before (after.remember r pos reply)
      (new ++ [(mark, pos)]) := by
  have hnew : (mark, pos) ∉ new := fun hn => h.within hr pos hn hless
  have hcases : ∀ {r' mark'}, watched r' mark' → ∀ p, (mark', p) ∈ new ++ [(mark, pos)] →
      (mark', p) ∈ new ∨ r' = r ∧ p = pos := by
    intro r' mark' hw p hmem
    rcases List.mem_append.mp hmem with hmem | hmem
    · exact .inl hmem
    · obtain ⟨rfl, rfl⟩ : mark' = mark ∧ p = pos := by simpa using hmem
      exact .inr ⟨hW.own hw hr, rfl⟩
  refine ⟨fun key hk => mem_remember.mpr (.inr (h.kept key hk)), ?_, ?_, ?_, ?_, ?_⟩
  · simpa [Memory.remember, Memory.note] using h.log
  · intro r' mark' hw p
    rw [List.count_append, List.count_singleton]
    split
    next heq =>
      have heq' : (mark, pos) = (mark', p) := by simpa using heq
      have hzero : new.count (mark', p) = 0 := List.count_eq_zero_of_not_mem (heq' ▸ hnew)
      omega
    next => exact h.once hw p
  · intro r' mark' hw p hmem
    rcases hcases hw p hmem with hn | ⟨rfl, rfl⟩
    · exact h.unknown hw p hn
    · exact hunknown
  · intro r' mark' hw p hmem
    rcases hcases hw p hmem with hn | ⟨rfl, rfl⟩
    · exact mem_remember.mpr (.inr (h.known hw p hn))
    · exact mem_remember.mpr (.inl rfl)
  · intro r' mark' hw p hmem
    rcases hcases hw p hmem with hn | ⟨rfl, rfl⟩
    · exact evalRule_ne_none_mono hd (h.within hw p hn)
    · exact henough

/-- From a faithful memory the session gives the plain reply. -/
def Repeats (G : Grammar S) (text : List Char) (rounds : Nat) (watched : S.Rule → String → Prop)
    (depth : Nat) (α : Type) (x : Option (Reply α)) (y : Session S (Reply α)) : Prop :=
  ∀ reply, x = some reply → reply.Ends (·.On text) ∧
    ∀ memory, Faithful G text rounds memory → ∃ after new, y memory = some (reply, after) ∧
      Faithful G text rounds after ∧ Grown G text rounds watched depth memory after new

theorem repeats_bind (hxy : Repeats G text rounds watched depth α x y)
    (hfg : ∀ reply, reply.Ends (·.On text) →
      Repeats G text rounds watched depth β (f reply) (g reply)) :
    Repeats G text rounds watched depth β (x >>= f) (y >>= g) := by
  intro reply h
  obtain ⟨first, hx, hf⟩ := Option.bind_eq_some_iff.mp h
  obtain ⟨hends, hfirst⟩ := hxy first hx
  obtain ⟨hends', hsecond⟩ := hfg first hends reply hf
  refine ⟨hends', fun memory hm => ?_⟩
  obtain ⟨middle, new, hy, hmiddle, hgrown⟩ := hfirst memory hm
  obtain ⟨after, new', hg, hafter, hgrown'⟩ := hsecond middle hmiddle
  exact ⟨after, new' ++ new, Option.bind_eq_some_iff.mpr ⟨_, hy, hg⟩, hafter, hgrown.trans hgrown'⟩

theorem repeats_simulation
    (hcall : ∀ r c, c.On text → Repeats G text rounds watched depth _
      (G.evalRule rounds depth r c) (G.sessionRule rounds depth' r c)) :
    Simulation (Cursor.On text) (fun name => ∀ r, ¬watched r name)
      (Repeats G text rounds watched depth) (G.plain rounds depth)
      (G.remembering rounds depth') where
  steady := Cursor.steady_on text
  pure reply hends reply' h := by
    cases h
    exact ⟨hends, fun memory hm => ⟨memory, [], rfl, hm, Grown.refl⟩⟩
  bind := repeats_bind
  mark pos hname h reply heq := by
    obtain ⟨hends, hrun⟩ := h reply heq
    refine ⟨hends, fun memory hm => ?_⟩
    obtain ⟨after, new, hy, hafter, hgrown⟩ := hrun _ (hm.note _ pos)
    exact ⟨after, _, hy, hafter, (Grown.note hname pos).trans hgrown⟩
  exhausted _ _ h := nomatch h
  rounds := Nat.le_refl _
  call := hcall

/-- A rule in a session gives its plain reply, also where the session has more depth than needed. -/
theorem sessionRule_repeats (hW : Watching G watched) (hd : depth ≤ depth') (r : S.Rule)
    (c : Cursor) (hc : c.On text) :
    Repeats G text rounds watched depth _ (G.evalRule rounds depth r c)
      (G.sessionRule rounds depth' r c) := by
  induction depth using Nat.strongRecOn generalizing depth' r c with
  | ind depth ih =>
    intro reply hreply
    refine ⟨evalRule_ends hc hreply, fun memory hm => ?_⟩
    -- what the body calls is computed within a depth that does not suffice for the rule itself
    obtain ⟨least, hlt, hless, hbody⟩ := evalRule_least hreply
    obtain ⟨depth', rfl⟩ : ∃ d, depth' = d + 1 := ⟨depth' - 1, by omega⟩
    have hsim : Simulation _ _ _ (G.plain rounds least) (G.remembering rounds depth') :=
      repeats_simulation fun r c hc => ih least hlt (by omega) r c hc
    have hpos : Cursor.ofPos text c.pos = c := hc.symm
    rw [sessionRule_succ]
    by_cases hmemo : G.memoised r = true
    · rw [if_pos hmemo]
      cases hget : memory.replies.get? (r, c.pos) with
      | some known =>
        obtain ⟨known, hknown⟩ := hm r c.pos _ hget
        rw [hpos] at hknown
        rw [evalRule_unique hreply hknown]
        exact ⟨memory, [], Session.remembered_hit hget, hm, Grown.refl⟩
      | none =>
        have hunknown : (r, c.pos) ∉ memory.replies := by
          rw [Std.DHashMap.mem_iff_isSome_get?, hget]
          exact Bool.false_ne_true
        rw [Session.remembered_miss hget]
        by_cases hwatched : ∃ mark, watched r mark
        · obtain ⟨mark, hr⟩ := hwatched
          obtain ⟨q, hq, hsilent⟩ := hW.probed hr
          rw [hq] at hbody
          obtain ⟨-, hrun⟩ := hsim.run q hc hsilent reply hbody
          obtain ⟨after, new, hy, hafter, hgrown⟩ := hrun _ (hm.note mark c.pos)
          have hread := hgrown.read hW hr hunknown (hpos ▸ hless) (by simp [hpos, hreply])
            (Nat.le_of_lt hlt) reply
          refine ⟨_, _, ?_, hafter.remember ⟨_, hpos.symm ▸ hreply⟩, hread⟩
          rw [hq]
          exact Option.map_eq_some_iff.mpr ⟨_, hy, rfl⟩
        · have hsilent := hW.silent fun mark hr => hwatched ⟨mark, hr⟩
          obtain ⟨-, hrun⟩ := hsim.run (G.body r) hc hsilent reply hbody
          obtain ⟨after, new, hy, hafter, hgrown⟩ := hrun memory hm
          exact ⟨_, new, Option.map_eq_some_iff.mpr ⟨_, hy, rfl⟩,
            hafter.remember ⟨_, hpos.symm ▸ hreply⟩,
            (hgrown.remember r _ reply).mono (Nat.le_of_lt hlt)⟩
    · rw [if_neg hmemo]
      have hsilent := hW.silent fun mark hr => hmemo (hW.memoised hr)
      obtain ⟨-, hrun⟩ := hsim.run (G.body r) hc hsilent reply hbody
      obtain ⟨after, new, hy, hafter, hgrown⟩ := hrun memory hm
      exact ⟨after, new, hy, hafter, hgrown.mono (Nat.le_of_lt hlt)⟩

theorem session_repeats (hW : Watching G watched) (hd : depth ≤ depth')
    (hp : ∀ name ∈ p.marks, ∀ r, ¬watched r name) (hc : c.On text) :
    Repeats G text rounds watched depth α (G.eval rounds depth p c)
      (G.session rounds depth' p c) :=
  (repeats_simulation fun r c hc => sessionRule_repeats hW hd r c hc).run p hc hp

end Watched

theorem session_of_eval (h : G.eval rounds depth p (Cursor.ofPos text pos) = some reply) :
    ∃ memory, G.session rounds depth p (Cursor.ofPos text pos) {} = some (reply, memory) := by
  have hrepeats := session_repeats (watching_nothing G) (Nat.le_refl depth)
    (fun _ _ _ hw => hw) (Cursor.on_ofPos text pos) reply h
  obtain ⟨memory, -, hsession, -, -⟩ := hrepeats.2 {} faithful_empty
  exact ⟨memory, hsession⟩

theorem session_unique (h : G.session rounds depth p (.ofPos text pos) {} = some (reply, memory))
    (h' : G.session rounds' depth' p (.ofPos text pos) {} = some (reply', memory')) :
    reply = reply' := by
  have hc := Cursor.on_ofPos text pos
  obtain ⟨-, least, hleast⟩ := eval_of_session hc faithful_empty h
  obtain ⟨-, least', hleast'⟩ := eval_of_session hc faithful_empty h'
  have heval := eval_mono (Nat.le_max_left rounds rounds') (Nat.le_max_left least least')
    (hleast least (Nat.le_refl _))
  have heval' := eval_mono (Nat.le_max_right rounds rounds') (Nat.le_max_right least least')
    (hleast' least' (Nat.le_refl _))
  exact Option.some.inj (heval.symm.trans heval')

/-! ### Runs that share a memory -/

/-- The replies of a parser at several positions, one run after another with one memory. -/
def sessions (G : Grammar S) (rounds depth : Nat) (p : Parser S α) (text : List Char)
    (positions : List Nat) : Session S (List (Reply α)) :=
  positions.mapM fun pos => G.session rounds depth p (Cursor.ofPos text pos)

variable {p : Parser S α} {positions : List Nat} {replies : List (Reply α)} {after : Memory S}

theorem sessions_cons (pos : Nat) :
    G.sessions rounds depth p text (pos :: positions) = (do
      let reply ← G.session rounds depth p (Cursor.ofPos text pos)
      let replies ← G.sessions rounds depth p text positions
      return reply :: replies) :=
  List.mapM_cons

theorem sessions_cons_eq_some :
    G.sessions rounds depth p text (pos :: positions) memory = some (all, after) ↔
      ∃ reply middle replies,
        G.session rounds depth p (Cursor.ofPos text pos) memory = some (reply, middle) ∧
          G.sessions rounds depth p text positions middle = some (replies, after) ∧
            all = reply :: replies := by
  rw [sessions_cons]
  constructor
  · intro h
    obtain ⟨⟨reply, middle⟩, hfirst, hrest⟩ := Option.bind_eq_some_iff.mp h
    obtain ⟨⟨replies, last⟩, hothers, heq⟩ := Option.bind_eq_some_iff.mp hrest
    cases heq
    exact ⟨reply, middle, replies, hfirst, hothers, rfl⟩
  · rintro ⟨reply, middle, replies, hfirst, hothers, rfl⟩
    exact Option.bind_eq_some_iff.mpr ⟨_, hfirst, Option.bind_eq_some_iff.mpr ⟨_, hothers, rfl⟩⟩

theorem sessions_mono (hd : depth ≤ depth')
    (h : G.sessions rounds depth p text positions memory = some (replies, after)) :
    G.sessions rounds depth' p text positions memory = some (replies, after) := by
  induction positions generalizing memory replies with
  | nil => exact h
  | cons pos positions ih =>
    obtain ⟨reply, middle, others, hfirst, hothers, rfl⟩ := sessions_cons_eq_some.mp h
    have hfirst' := session_below hd p (Cursor.ofPos text pos) _ _ hfirst
    exact sessions_cons_eq_some.mpr ⟨reply, middle, others, hfirst', ih hothers, rfl⟩

theorem evals_of_sessions (hm : Faithful G text rounds memory)
    (h : G.sessions rounds depth p text positions memory = some (replies, after)) :
    ∃ depth, List.Forall₂
      (fun pos reply => G.eval rounds depth p (Cursor.ofPos text pos) = some reply)
      positions replies := by
  induction positions generalizing memory replies with
  | nil =>
    cases h
    exact ⟨0, .nil⟩
  | cons pos positions ih =>
    obtain ⟨reply, middle, others, hfirst, hothers, rfl⟩ := sessions_cons_eq_some.mp h
    obtain ⟨hmiddle, least, hleast⟩ := eval_of_session (Cursor.on_ofPos text pos) hm hfirst
    obtain ⟨depth', hrest⟩ := ih hmiddle hothers
    refine ⟨max least depth', .cons (hleast _ (by omega)) (hrest.imp fun _ _ heval => ?_)⟩
    exact eval_mono (Nat.le_refl _) (by omega) heval

theorem sessions_of_evals (hW : Watching G watched) (hp : ∀ name ∈ p.marks, ∀ r, ¬watched r name)
    (hd : depth ≤ depth') (hm : Faithful G text rounds memory)
    (h : List.Forall₂ (fun pos reply => G.eval rounds depth p (Cursor.ofPos text pos) =
      some reply) positions replies) :
    ∃ after new, G.sessions rounds depth' p text positions memory = some (replies, after) ∧
      Grown G text rounds watched depth memory after new := by
  induction h generalizing memory with
  | nil => exact ⟨memory, [], rfl, Grown.refl⟩
  | cons hfirst _ ih =>
    obtain ⟨-, hrun⟩ := session_repeats hW hd hp (Cursor.on_ofPos text _) _ hfirst
    obtain ⟨middle, new, hsession, hmiddle, hgrown⟩ := hrun memory hm
    obtain ⟨after, new', hothers, hgrown'⟩ := ih hmiddle
    exact ⟨after, new' ++ new, sessions_cons_eq_some.mpr ⟨_, middle, _, hsession, hothers, rfl⟩,
      hgrown.trans hgrown'⟩

/-- Runs at several positions with one memory end with the given replies and memory. -/
def Shared (G : Grammar S) (p : Parser S α) (text : List Char) (positions : List Nat)
    (replies : List (Reply α)) (memory : Memory S) : Prop :=
  ∃ rounds depth, (G.sessions rounds depth p text positions).run {} = some (replies, memory)

/-- A run with a memory of its own in which nothing is remembered ends with the given reply. -/
def Alone (G : Grammar S) (p : Parser S α) (text : List Char) (pos : Nat) (reply : Reply α) :
    Prop :=
  ∃ rounds depth memory,
    (G.forgetful.session rounds depth p (Cursor.ofPos text pos)).run {} = some (reply, memory)

theorem alone_iff :
    G.Alone p text pos reply ↔
      ∃ rounds depth, G.eval rounds depth p (Cursor.ofPos text pos) = some reply := by
  constructor
  · rintro ⟨rounds, depth, memory, h⟩
    obtain ⟨-, least, hleast⟩ := eval_of_session (Cursor.on_ofPos text pos) faithful_empty h
    exact ⟨rounds, least, (eval_forgetful _ _).symm.trans (hleast least (Nat.le_refl _))⟩
  · rintro ⟨rounds, depth, h⟩
    rw [← eval_forgetful] at h
    obtain ⟨-, hrun⟩ := session_repeats (watching_nothing _) (Nat.le_refl depth)
      (fun _ _ _ => id) (Cursor.on_ofPos text pos) reply h
    obtain ⟨after, -, hsession, -⟩ := hrun {} faithful_empty
    exact ⟨rounds, depth, after, hsession⟩

theorem evals_of_alone (h : List.Forall₂ (G.Alone p text) positions replies) :
    ∃ rounds depth, List.Forall₂
      (fun pos reply => G.eval rounds depth p (Cursor.ofPos text pos) = some reply)
      positions replies := by
  induction h with
  | nil => exact ⟨0, 0, .nil⟩
  | cons hfirst _ ih =>
    obtain ⟨rounds, depth, hfirst⟩ := alone_iff.mp hfirst
    obtain ⟨rounds', depth', hrest⟩ := ih
    refine ⟨max rounds rounds', max depth depth', .cons ?_ (hrest.imp fun _ _ heval => ?_)⟩
    · exact eval_mono (by omega) (by omega) hfirst
    · exact eval_mono (by omega) (by omega) heval

theorem shared_iff (G : Grammar S) (p : Parser S α) (text : List Char) (positions : List Nat)
    (replies : List (Reply α)) :
    (∃ memory, G.Shared p text positions replies memory) ↔
      List.Forall₂ (G.Alone p text) positions replies := by
  constructor
  · rintro ⟨memory, rounds, depth, h⟩
    obtain ⟨depth', hevals⟩ := evals_of_sessions faithful_empty h
    exact hevals.imp fun pos reply heval => alone_iff.mpr ⟨rounds, depth', heval⟩
  · intro h
    obtain ⟨rounds, depth, hevals⟩ := evals_of_alone h
    obtain ⟨after, -, hsessions, -⟩ := sessions_of_evals (watching_nothing G) (fun _ _ _ => id)
      (Nat.le_refl depth) faithful_empty hevals
    exact ⟨after, rounds, depth, hsessions⟩

theorem alone_watch (r : S.Rule) (mark : String) (pos : Nat) (reply : Reply α) :
    (G.watch r mark).Alone p text pos reply ↔ G.Alone p text pos reply := by
  simp only [alone_iff, eval_watch]

/-- The mark of a memoised rule is left at most once for a position. -/
theorem count_mark_le_one (hmemo : G.memoised r = true) (hp : mark ∉ p.marks)
    (hG : ∀ r', mark ∉ (G.body r').marks)
    (h : (G.watch r mark).Shared p text positions replies memory) (pos : Nat) :
    memory.log.count (mark, pos) ≤ 1 := by
  obtain ⟨rounds, depth, h⟩ := h
  obtain ⟨depth', hevals⟩ := evals_of_sessions faithful_empty h
  have hsilent : ∀ name ∈ p.marks, ∀ r', ¬(r' = r ∧ name = mark) :=
    fun name hname r' heq => hp (heq.2 ▸ hname)
  obtain ⟨after, new, hsessions, hgrown⟩ := sessions_of_evals (watching_watch hmemo hG) hsilent
    (Nat.le_max_left depth' depth) faithful_empty hevals
  -- both runs are the same once the first has the depth of the second
  have hsame := (sessions_mono (Nat.le_max_right depth' depth) h).symm.trans hsessions
  obtain rfl : memory = after := congrArg Prod.snd (Option.some.inj hsame)
  have hlog : memory.log = new := by simpa using hgrown.log
  rw [hlog]
  exact hgrown.once ⟨rfl, rfl⟩ pos

/-- Remembering replies changes none of them, and spares every repeated reading. -/
theorem memoisation_transparent (G : Grammar S) (p : Parser S α) (text : List Char)
    (positions : List Nat) :
    (∀ replies, (∃ memory, G.Shared p text positions replies memory) ↔
      List.Forall₂ (G.Alone p text) positions replies) ∧
    ∀ (r : S.Rule) (mark : String), G.memoised r = true → mark ∉ p.marks →
      (∀ r', mark ∉ (G.body r').marks) →
        (∀ replies, (∃ memory, (G.watch r mark).Shared p text positions replies memory) ↔
          ∃ memory, G.Shared p text positions replies memory) ∧
        ∀ replies memory, (G.watch r mark).Shared p text positions replies memory →
          ∀ pos, memory.log.count (mark, pos) ≤ 1 := by
  refine ⟨shared_iff G p text positions, fun r mark hmemo hp hG => ⟨fun replies => ?_, ?_⟩⟩
  · rw [shared_iff, shared_iff]
    have halone : (G.watch r mark).Alone p text = G.Alone p text := by
      funext pos reply
      exact propext (alone_watch r mark pos reply)
    rw [halone]
  · intro replies memory h pos
    exact count_mark_le_one hmemo hp hG h pos

/-- One memoised rule: a letter in any number of brackets. -/
def brackets : Grammar ⟨Unit, fun _ => String⟩ where
  body _ := .alt (.between (.text ['('] "'('") (.call ()) (.text [')'] "')'")) (.text ['x'] "'x'")
  memoised _ := true

/-- The letter in two brackets is read from three positions, each of them read already when it is
asked for again. -/
theorem memoisation_transparent_brackets :
    ∃ replies memory, (brackets.watch () "read").Shared (.call ()) "((x))".toList [2, 1, 0, 1]
      replies memory ∧ ∀ pos, memory.log.count ("read", pos) ≤ 1 := by
  obtain ⟨hshared, hwatch⟩ :=
    memoisation_transparent brackets (.call ()) "((x))".toList [2, 1, 0, 1]
  have halone : ∀ pos, pos < 3 → ∃ reply, brackets.Alone (.call ()) "((x))".toList pos reply := by
    intro pos hpos
    match pos, hpos with
    | 0, _ => exact ⟨_, 1, 3, {}, rfl⟩
    | 1, _ => exact ⟨_, 1, 2, {}, rfl⟩
    | 2, _ => exact ⟨_, 1, 1, {}, rfl⟩
  obtain ⟨first, h₀⟩ := halone 0 (by decide)
  obtain ⟨second, h₁⟩ := halone 1 (by decide)
  obtain ⟨third, h₂⟩ := halone 2 (by decide)
  obtain ⟨hsame, honce⟩ := hwatch () "read" rfl (by simp [Parser.marks])
    (fun _ => by simp [brackets, Parser.between, Parser.marks,
      SeqRight.seqRight, SeqLeft.seqLeft, Functor.map])
  obtain ⟨memory, hmemory⟩ := (hsame _).mpr
    ((hshared _).mpr (.cons h₂ (.cons h₁ (.cons h₀ (.cons h₁ .nil)))))
  exact ⟨_, memory, hmemory, honce _ memory hmemory⟩

end AgentLang.Parse.Grammar
