import AgentLang.Proofs.Parse.Progress
import AgentLang.Proofs.Parse.Session

/-!
# Termination

In a strict session a rule that is still being evaluated may only be entered again further on in the
text; a session that breaks this rule has no reply. In a guarded grammar strict sessions always have
one, within a depth that depends on the length of the text alone.
-/

namespace AgentLang.Parse.Grammar

variable {S : Signature} [DecidableEq S.Rule] [Hashable S.Rule] {α : Type} {G : Grammar S}
  {rounds depth : Nat} {opened : List (S.Rule × Nat)}

/-- The reply of a rule in a strict session, in which the rules of `opened` are still being
evaluated at their positions. -/
def strictRule (G : Grammar S) (rounds : Nat) : (depth : Nat) → (opened : List (S.Rule × Nat)) →
    (r : S.Rule) → Cursor → Session S (Reply (S.Out r))
  | 0, _, _, _ => Session.exhausted
  | depth + 1, opened, r, c =>
    if ∀ entry ∈ opened, entry.1 = r → entry.2 < c.pos then
      let compute := Engine.run ⟨G.strictRule rounds depth ((r, c.pos) :: opened), Session.mark,
        Session.exhausted, rounds⟩ (G.body r) c
      if G.memoised r then Session.remembered r c.pos compute else compute
    else Session.exhausted

/-- The engine behind the replies in a strict session. -/
abbrev strict (G : Grammar S) (rounds depth : Nat) (opened : List (S.Rule × Nat)) :
    Engine S (Session S) :=
  ⟨G.strictRule rounds depth opened, Session.mark, Session.exhausted, rounds⟩

/-- The reply of a parser in a strict session. -/
def strictSession (G : Grammar S) (rounds depth : Nat) (p : Parser S α) (c : Cursor) :
    Session S (Reply α) :=
  (G.strict rounds depth []).run p c

theorem strictRule_succ (r : S.Rule) (c : Cursor) :
    G.strictRule rounds (depth + 1) opened r c =
      if ∀ entry ∈ opened, entry.1 = r → entry.2 < c.pos then
        if G.memoised r then Session.remembered r c.pos
          ((G.strict rounds depth ((r, c.pos) :: opened)).run (G.body r) c)
        else (G.strict rounds depth ((r, c.pos) :: opened)).run (G.body r) c
      else Session.exhausted := rfl

/-! ### Strict sessions are sessions -/

theorem strictRule_below (r : S.Rule) (c : Cursor) :
    Session.Below _ (G.strictRule rounds depth opened r c) (G.sessionRule rounds depth r c) := by
  induction depth generalizing opened r c with
  | zero => exact fun _ _ h => nomatch h
  | succ depth ih =>
    have hsim : Simulation _ _ Session.Below (G.strict rounds depth ((r, c.pos) :: opened))
        (G.remembering rounds depth) :=
      Session.below_simulation (Nat.le_refl _) rfl (fun _ _ => rfl) fun r c => ih r c
    have hbody := hsim.run (G.body r) (c := c) trivial fun _ _ => trivial
    rw [strictRule_succ, sessionRule_succ]
    split
    · split
      · exact Session.below_remembered hbody
      · exact hbody
    · exact fun _ _ h => nomatch h

theorem strictSession_below (p : Parser S α) (c : Cursor) :
    Session.Below _ (G.strictSession rounds depth p c) (G.session rounds depth p c) := by
  have hsim :
      Simulation _ _ Session.Below (G.strict rounds depth []) (G.remembering rounds depth) :=
    Session.below_simulation (Nat.le_refl _) rfl (fun _ _ => rfl) fun r c => strictRule_below r c
  exact hsim.run p trivial fun _ _ => trivial

/-! ### Strict sessions end -/

variable {text : List Char} {empty : S.Rule → Bool} {rank : S.Rule → Nat} {ranks : Nat}

/-- The remembered replies lead on from where they belong. -/
def Known (text : List Char) (empty : S.Rule → Bool) (memory : Memory S) : Prop :=
  memory.All fun r pos reply => reply.Proceeds text (empty r) (Cursor.ofPos text pos)

/-- The session ends with a reply of some kind. -/
def Finishes (text : List Char) (empty : S.Rule → Bool) (α : Type) (x : Session S (Reply α))
    (post : Reply α → Prop) : Prop :=
  ∀ memory, Known text empty memory →
    ∃ reply after, x memory = some (reply, after) ∧ Known text empty after ∧ post reply

theorem finishes_logic {E : Engine S (Session S)} (hmark : E.mark = Session.mark) :
    E.Logic (Finishes text empty) where
  pure reply h memory hmemory := ⟨reply, memory, rfl, hmemory, h⟩
  mono hx hpost memory hmemory := by
    obtain ⟨reply, after, heq, hafter, hreply⟩ := hx memory hmemory
    exact ⟨reply, after, heq, hafter, hpost reply hreply⟩
  bind hx hf memory hmemory := by
    obtain ⟨reply, middle, heq, hmiddle, hreply⟩ := hx memory hmemory
    obtain ⟨reply', after, heq', hafter, hreply'⟩ := hf reply hreply middle hmiddle
    exact ⟨reply', after, Option.bind_eq_some_iff.mpr ⟨_, heq, heq'⟩, hafter, hreply'⟩
  mark name pos hx memory hmemory := by
    rw [hmark]
    exact hx (memory.note name pos) (hmemory.note name pos)

theorem finishes_remembered {r : S.Rule} (hc : c.On text) {x : Session S (Reply (S.Out r))}
    (hx : Finishes text empty _ x (Reply.Proceeds text (empty r) c)) :
    Finishes text empty _ (Session.remembered r c.pos x) (Reply.Proceeds text (empty r) c) := by
  intro memory hmemory
  cases hget : memory.replies.get? (r, c.pos) with
  | some reply =>
    refine ⟨reply, memory, Session.remembered_hit hget, hmemory, ?_⟩
    have hreply : reply.Proceeds text (empty r) (Cursor.ofPos text c.pos) :=
      hmemory r c.pos reply hget
    exact hc.symm ▸ hreply
  | none =>
    obtain ⟨reply, after, heq, hafter, hreply⟩ := hx memory hmemory
    refine ⟨reply, after.remember r c.pos reply, ?_, hafter.remember (hc ▸ hreply), hreply⟩
    rw [Session.remembered_miss hget, heq]
    rfl

/-- The rules still being evaluated are above the next call, so none of them comes back at the same
place. -/
theorem strictRule_finishes (hG : G.Guarded empty rank) (hrank : ∀ r, rank r < ranks)
    (hr : text.length + 2 ≤ rounds) (r : S.Rule) (c : Cursor) (hc : c.On text)
    (hd : height text rank ranks r c.pos < depth)
    (hopened : ∀ entry ∈ opened,
      height text rank ranks r c.pos < height text rank ranks entry.1 entry.2) :
    Finishes text empty _ (G.strictRule rounds depth opened r c)
      (Reply.Proceeds text (empty r) c) := by
  induction depth generalizing opened r c with
  | zero => exact absurd hd (Nat.not_lt_zero _)
  | succ depth ih =>
    have hforward : ∀ entry ∈ opened, entry.1 = r → entry.2 < c.pos := by
      rintro ⟨r', pos⟩ hmem rfl
      exact pos_lt_of_height_lt (hopened _ hmem)
    have hready : (G.strict rounds depth ((r, c.pos) :: opened)).Ready (Finishes text empty) text
        empty ((G.body r).leading empty) c := by
      intro r' c' hc' hleft
      have hlt : height text rank ranks r' c'.pos < height text rank ranks r c.pos := by
        rcases hleft with hlt | ⟨heq, hmem⟩
        · exact height_lt_of_advanced hrank hlt
        · have := hG.descending r r' hmem
          rw [height, height, heq]
          omega
      refine ih r' c' hc' (by omega) fun entry hmem => ?_
      rcases List.mem_cons.mp hmem with rfl | hmem
      · exact hlt
      · exact Nat.lt_trans hlt (hopened entry hmem)
    have hlogic : (G.strict rounds depth ((r, c.pos) :: opened)).Logic (Finishes text empty) :=
      finishes_logic rfl
    have hbody := hlogic.mono (hlogic.run_proceeds hr (G.body r) hc hready) fun reply hreply =>
      hreply.mono (hG.nullable r)
    rw [strictRule_succ, if_pos hforward]
    split
    · exact finishes_remembered hc hbody
    · exact hbody

/-- Every run of a guarded grammar ends within a depth known from the length of the text. -/
theorem strictSession_finishes (hG : G.Guarded empty rank) (hrank : ∀ r, rank r < ranks)
    (hr : text.length + 2 ≤ rounds) (hd : ranks * (text.length + 1) ≤ depth) (p : Parser S α)
    (hc : c.On text) :
    Finishes text empty α (G.strictSession rounds depth p c)
      (Reply.Proceeds text (p.nullable empty) c) := by
  have hlogic : (G.strict rounds depth []).Logic (Finishes text empty) := finishes_logic rfl
  refine hlogic.run_proceeds hr p hc fun r c' hc' _ => ?_
  have hlt := height_lt text hrank r c'.pos
  exact strictRule_finishes hG hrank hr r c' hc' (Nat.lt_of_lt_of_le hlt hd) fun _ h => nomatch h

end AgentLang.Parse.Grammar
