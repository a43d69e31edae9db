import AgentLang.Proofs.Parse.Fuel
import Mathlib

/-!
# Sessions

How a session uses its memory, and when what one session does is done by another as well.
-/

namespace AgentLang.Parse.Grammar

variable {S : Signature} [DecidableEq S.Rule] [Hashable S.Rule] {α : Type} {G : Grammar S}
  {rounds depth depth' : Nat} {memory : Memory S}

/-- The memory with one more reply. -/
def Memory.remember (memory : Memory S) (r : S.Rule) (pos : Nat) (reply : Reply (S.Out r)) :
    Memory S :=
  { memory with replies := memory.replies.insert (r, pos) reply }

/-- The memory with one more mark. -/
def Memory.note (memory : Memory S) (name : String) (pos : Nat) : Memory S :=
  { memory with log := (name, pos) :: memory.log }

/-- Every remembered reply is of a kind that depends on its rule and position. -/
def Memory.All (Q : (r : S.Rule) → Nat → Reply (S.Out r) → Prop) (memory : Memory S) : Prop :=
  ∀ r pos reply, memory.replies.get? (r, pos) = some reply → Q r pos reply

theorem Memory.all_empty : ({} : Memory S).All Q := by
  intro r pos reply h
  simp at h

theorem Memory.All.note (h : memory.All Q) (name : String) (pos : Nat) :
    (memory.note name pos).All Q := h

theorem Memory.All.remember (h : memory.All Q) (hreply : Q r pos reply) :
    (memory.remember r pos reply).All Q := by
  intro r' pos' reply' h'
  rw [Memory.remember, Std.DHashMap.get?_insert] at h'
  split at h'
  next heq =>
    obtain ⟨rfl, rfl⟩ : r = r' ∧ pos = pos' := by simpa using heq
    cases h'
    exact hreply
  next => exact h r' pos' reply' h'

namespace Session

variable {r : S.Rule} {pos : Nat} {reply : Reply (S.Out r)} {compute : Session S (Reply (S.Out r))}

theorem mark_bind (name : String) (pos : Nat) (x : Session S α) :
    (Session.mark name pos >>= fun _ => x) memory = x (memory.note name pos) := rfl

theorem remembered_hit (h : memory.replies.get? (r, pos) = some reply) :
    remembered r pos compute memory = some (reply, memory) := by
  simp [remembered, bind, StateT.bind, get, getThe, MonadStateOf.get, StateT.get, h, pure,
    StateT.pure]

theorem remembered_miss (h : memory.replies.get? (r, pos) = none) :
    remembered r pos compute memory =
      (compute memory).map fun (reply, after) => (reply, after.remember r pos reply) := by
  simp only [remembered, bind, StateT.bind, get, getThe, MonadStateOf.get, StateT.get, h, pure,
    Option.bind_some]
  cases compute memory <;> rfl

end Session

/-! ### Sessions below each other -/

/-- The engine behind the replies in a session. -/
abbrev remembering (G : Grammar S) (rounds depth : Nat) : Engine S (Session S) :=
  ⟨G.sessionRule rounds depth, Session.mark, Session.exhausted, rounds⟩

theorem sessionRule_succ (r : S.Rule) (c : Cursor) :
    G.sessionRule rounds (depth + 1) r c =
      if G.memoised r then
        Session.remembered r c.pos ((G.remembering rounds depth).run (G.body r) c)
      else (G.remembering rounds depth).run (G.body r) c := rfl

/-- What a session does is done by the other as well. -/
def Session.Below (α : Type) (x y : Session S (Reply α)) : Prop :=
  ∀ memory result, x memory = some result → y memory = some result

theorem Session.below_bind {x y : Session S α} {f g : α → Session S β}
    (hxy : ∀ memory result, x memory = some result → y memory = some result)
    (hfg : ∀ a memory result, f a memory = some result → g a memory = some result)
    (memory : Memory S) (result : β × Memory S) (h : (x >>= f) memory = some result) :
    (y >>= g) memory = some result := by
  obtain ⟨⟨a, middle⟩, hx, hf⟩ := Option.bind_eq_some_iff.mp h
  exact Option.bind_eq_some_iff.mpr ⟨_, hxy _ _ hx, hfg _ _ _ hf⟩

theorem Session.below_remembered {r : S.Rule} {x y : Session S (Reply (S.Out r))} (h : Below _ x y) :
    Below _ (remembered r pos x) (remembered r pos y) := by
  refine below_bind (fun _ _ => id) fun memory => ?_
  cases memory.replies.get? (r, pos) with
  | some reply => exact fun _ _ => id
  | none => exact below_bind h fun _ _ _ => id

theorem Session.below_simulation {E F : Engine S (Session S)} (hr : E.rounds ≤ F.rounds)
    (hmark : E.mark = F.mark) (hexhausted : ∀ α memory, E.exhausted (α := α) memory = none)
    (hcall : ∀ r c, Below _ (E.call r c) (F.call r c)) :
    Simulation (fun _ => True) (fun _ => True) Session.Below E F where
  steady := Cursor.steady_true
  pure _ _ _ _ := id
  bind hxy hfg := below_bind hxy fun reply => hfg reply fun _ _ _ => trivial
  mark _ _ h := by
    rw [hmark]
    exact below_bind (fun _ _ => id) fun _ => h
  exhausted _ memory _ h := nomatch (hexhausted _ memory).symm.trans h
  rounds := hr
  call r c _ := hcall r c

theorem sessionRule_below (hd : depth ≤ depth') (r : S.Rule) (c : Cursor) :
    Session.Below _ (G.sessionRule rounds depth r c) (G.sessionRule rounds depth' r c) := by
  induction depth generalizing depth' r c with
  | zero => exact fun _ _ h => nomatch h
  | succ depth ih =>
    obtain ⟨depth', rfl⟩ : ∃ d, depth' = d + 1 := ⟨depth' - 1, by omega⟩
    have hsim : Simulation _ _ Session.Below (G.remembering rounds depth)
        (G.remembering rounds depth') :=
      Session.below_simulation (Nat.le_refl _) rfl (fun _ _ => rfl) fun r c => ih (by omega) r c
    have hbody := hsim.run (G.body r) (c := c) trivial fun _ _ => trivial
    rw [sessionRule_succ, sessionRule_succ]
    split
    · exact Session.below_remembered hbody
    · exact hbody

/-- A larger budget for nested calls changes nothing about a run that terminates in a session. -/
theorem session_below (hd : depth ≤ depth') (p : Parser S α) (c : Cursor) :
    Session.Below _ (G.session rounds depth p c) (G.session rounds depth' p c) := by
  have hsim : Simulation _ _ Session.Below (G.remembering rounds depth)
      (G.remembering rounds depth') :=
    Session.below_simulation (Nat.le_refl _) rfl (fun _ _ => rfl)
      fun r c => sessionRule_below hd r c
  exact hsim.run p trivial fun _ _ => trivial

end AgentLang.Parse.Grammar
