import AgentLang.Proofs.Parse.Position

/-!
# Progress

Which rules a parser may call before it has consumed anything is seen from the parser itself. Where
every rule leads only to rules of a lower rank that way, no rule comes back to itself without having
advanced. The argument does not depend on the engine: it is made for any way of saying that what an
engine does ends with a reply of some kind.
-/

namespace AgentLang.Parse

variable {S : Signature} {α β : Type}

namespace Parser

/-- Whether a parser may succeed without having advanced, given the rules that may. -/
def nullable (empty : S.Rule → Bool) : {α : Type} → Parser S α → Bool
  | _, .text literal _ => literal.isEmpty
  | _, .keyword word _ => word.isEmpty
  | _, .token shape _ => shape.nullable
  | _, .fail => false
  | _, .map _ p => p.nullable empty
  | _, .seq p q => p.nullable empty && q.nullable empty
  | _, .alt p q => p.nullable empty || q.nullable empty
  | _, .label p _ => p.nullable empty
  | _, .commit p _ => p.nullable empty
  | _, .probe _ p => p.nullable empty
  | _, .call r => empty r
  | _, _ => true

/-- The rules that a parser may call before it has advanced. -/
def leading (empty : S.Rule → Bool) : {α : Type} → Parser S α → List S.Rule
  | _, .map _ p => p.leading empty
  | _, .seq p q => p.leading empty ++ (if p.nullable empty then q.leading empty else [])
  | _, .alt p q => p.leading empty ++ q.leading empty
  | _, .optional p => p.leading empty
  | _, .many p => p.leading empty
  | _, .many1 p => p.leading empty
  | _, .sepBy p separator =>
    p.leading empty ++ (if p.nullable empty then separator.leading empty else [])
  | _, .lookahead p => p.leading empty
  | _, .notFollowedBy p _ => p.leading empty
  | _, .label p _ => p.leading empty
  | _, .commit p _ => p.leading empty
  | _, .probe _ p => p.leading empty
  | _, .call r => [r]
  | _, _ => []

end Parser

/-- No rule comes back to itself without having advanced: what it leads to at first is of a lower
rank. -/
structure Grammar.Guarded (G : Grammar S) (empty : S.Rule → Bool) (rank : S.Rule → Nat) : Prop where
  nullable : ∀ r, empty r = false → (G.body r).nullable empty = false
  descending : ∀ r, ∀ r' ∈ (G.body r).leading empty, rank r' < rank r

/-- The reply leads on from a cursor, and forward where it must not stay. -/
def Reply.Proceeds (text : List Char) (stays : Bool) (c : Cursor) (reply : Reply α) : Prop :=
  reply.Ends fun next => Cursor.Leads text c next ∧ (stays = false → c.pos < next.pos)

theorem Reply.Proceeds.leads {reply : Reply α} (h : reply.Proceeds text stays c) :
    reply.Ends (Cursor.Leads text c) :=
  Ends.mono h fun _ hnext => hnext.1

theorem Reply.Proceeds.mono {reply : Reply α} (h : reply.Proceeds text stays c)
    (hstays : stays' = false → stays = false) : reply.Proceeds text stays' c :=
  Ends.mono h fun _ hnext => ⟨hnext.1, fun hn => hnext.2 (hstays hn)⟩

theorem Reply.proceeds_of_leads {reply : Reply α} (hstays : stays = true)
    (h : reply.Ends (Cursor.Leads text c)) : reply.Proceeds text stays c :=
  h.mono fun _ hnext => ⟨hnext, fun hfalse => nomatch hstays.symm.trans hfalse⟩

namespace Engine

open Reply (ends_after ends_failure ends_map ends_miss ends_succeed ends_success proceeds_of_leads)

variable {m : Type → Type}

/-- A way of saying that what an engine does ends with a reply of some kind. -/
structure Logic [Monad m] (E : Engine S m)
    (Holds : (α : Type) → m (Reply α) → (Reply α → Prop) → Prop) : Prop where
  pure : ∀ {α : Type} {post : Reply α → Prop} (reply : Reply α), post reply →
    Holds α (pure reply) post
  mono : ∀ {α : Type} {x : m (Reply α)} {post post' : Reply α → Prop}, Holds α x post →
    (∀ reply, post reply → post' reply) → Holds α x post'
  bind : ∀ {α β : Type} {x : m (Reply α)} {f : Reply α → m (Reply β)} {post : Reply α → Prop}
    {post' : Reply β → Prop}, Holds α x post → (∀ reply, post reply → Holds β (f reply) post') →
    Holds β (x >>= f) post'
  mark : ∀ {α : Type} {x : m (Reply α)} {post : Reply α → Prop} (name : String) (pos : Nat),
    Holds α x post → Holds α (E.mark name pos >>= fun _ => x) post

variable {E : Engine S m} {Holds : (α : Type) → m (Reply α) → (Reply α → Prop) → Prop}
  {text : List Char} {empty : S.Rule → Bool}

/-- The calls that may be made from a cursor on: of any rule once the cursor has advanced, and of
the given rules also before. -/
def Ready (E : Engine S m) (Holds : (α : Type) → m (Reply α) → (Reply α → Prop) → Prop)
    (text : List Char) (empty : S.Rule → Bool) (rules : List S.Rule) (c : Cursor) : Prop :=
  ∀ (r : S.Rule) (c' : Cursor), c'.On text →
    text.length - c'.pos < text.length - c.pos ∨
      text.length - c'.pos = text.length - c.pos ∧ r ∈ rules →
    Holds (S.Out r) (E.call r c') (Reply.Proceeds text (empty r) c')

theorem Ready.mono (h : Ready E Holds text empty rules c) (hsub : ∀ r ∈ rules', r ∈ rules) :
    Ready E Holds text empty rules' c :=
  fun r c' hc' hleft => h r c' hc' (hleft.imp_right fun ⟨heq, hr⟩ => ⟨heq, hsub r hr⟩)

theorem Ready.next {rules : List S.Rule} {c next : Cursor} (h : Ready E Holds text empty rules c)
    (hnext : Cursor.Leads text c next) : Ready E Holds text empty rules next := by
  intro r c' hc' hleft
  have hle := hnext.left_le
  refine h r c' hc' ?_
  rcases hleft with hlt | ⟨heq, hr⟩
  · exact .inl (by omega)
  · rcases Nat.lt_or_ge (text.length - c'.pos) (text.length - c.pos) with hlt | hge
    · exact .inl hlt
    · exact .inr ⟨by omega, hr⟩

theorem Ready.advanced {rules rules' : List S.Rule} {c next : Cursor}
    (h : Ready E Holds text empty rules c) (hnext : Cursor.Leads text c next)
    (hlt : c.pos < next.pos) : Ready E Holds text empty rules' next := by
  intro r c' hc' hleft
  have := hnext.left_lt hlt
  refine h r c' hc' (.inl ?_)
  rcases hleft with hlt | ⟨heq, -⟩ <;> omega

/-- Behind a parser the rules of the next one may be called. -/
theorem Ready.behind {rules rules' : List S.Rule} {stays : Bool} {c next : Cursor}
    (h : Ready E Holds text empty (rules ++ if stays then rules' else []) c)
    (hnext : Cursor.Leads text c next ∧ (stays = false → c.pos < next.pos)) :
    Ready E Holds text empty rules' next := by
  cases stays with
  | true => exact (h.next hnext.1).mono fun r hr => List.mem_append_right rules hr
  | false => exact h.advanced hnext.1 (hnext.2 rfl)

/-! ### Repetition -/

variable [Monad m]

/-- How often a repetition can still move on. -/
def room (text : List Char) (c : Cursor) : Nat :=
  if c.pos ≤ text.length then text.length - c.pos else 1

theorem room_lt (h : Cursor.Leads text c next) (hne : next.pos ≠ c.pos) :
    room text next < room text c := by
  unfold room
  rcases Nat.lt_or_ge text.length c.pos with hout | hin
  · have hback := (h.outside hout).resolve_left hne
    rw [if_pos (by omega), if_neg (by omega)]
    omega
  · have hforward := h.inside hin
    rw [if_pos hforward.2, if_pos hin]
    omega

theorem room_le (text : List Char) (c : Cursor) : room text c ≤ text.length + 1 := by
  unfold room
  split <;> omega

theorem Logic.repeated_proceeds (h : Logic E Holds) (hc : c.On text) (hk : room text c < k)
    (hstep : ∀ c', Cursor.Leads text c c' →
      Holds α (step c') fun reply => reply.Ends (Cursor.Leads text c')) :
    Holds (List α) (E.repeated step k c) fun reply => reply.Ends (Cursor.Leads text c) := by
  induction k generalizing c with
  | zero => exact absurd hk (Nat.not_lt_zero _)
  | succ k ih =>
    refine h.bind (hstep c (.refl hc)) fun reply hreply => ?_
    obtain ⟨outcome, reach⟩ := reply
    cases outcome with
    | failure pos committed =>
      cases committed with
      | none => exact h.pure _ (ends_success.mpr (.refl hc))
      | some message => exact h.pure _ ends_failure
    | success value next =>
      have hnext := ends_success.mp hreply
      dsimp only
      split
      · exact h.pure _ (ends_success.mpr (.refl hc))
      next hne =>
        have hlt := room_lt hnext hne
        have hothers := ih hnext.on (by omega) fun c' hc' => hstep c' (hnext.trans hc')
        refine h.bind hothers fun others hothers => ?_
        refine h.pure _ (ends_after.mpr (ends_map.mpr ?_))
        exact hothers.mono fun last hlast => hnext.trans hlast

theorem Logic.andThen_proceeds (h : Logic E Holds) (hx : Holds α x (Reply.Proceeds text stays c))
    (hf : ∀ value next, Cursor.Leads text c next ∧ (stays = false → c.pos < next.pos) →
      Holds β (f value next) (Reply.Proceeds text stays' next)) :
    Holds β (andThen x f) (Reply.Proceeds text (stays && stays') c) := by
  refine h.bind hx fun reply hreply => ?_
  obtain ⟨outcome, reach⟩ := reply
  cases outcome with
  | failure pos committed => exact h.pure _ ends_failure
  | success value next =>
    have hnext := ends_success.mp hreply
    refine h.bind (hf value next hnext) fun other hother => ?_
    refine h.pure _ (ends_after.mpr (Reply.Ends.mono hother fun last hlast => ?_))
    refine ⟨hnext.1.trans hlast.1, fun hstays => ?_⟩
    rcases Bool.and_eq_false_iff.mp hstays with hs | hs
    · exact hnext.1.lt_trans hlast.1 (.inl (hnext.2 hs))
    · exact hnext.1.lt_trans hlast.1 (.inr (hlast.2 hs))

/-- A run on a text leads on from its cursor, and ends where all calls do that it may make. -/
theorem Logic.run_proceeds (h : Logic E Holds) (hr : text.length + 2 ≤ E.rounds) (p : Parser S α)
    (hc : c.On text) (hcall : Ready E Holds text empty (p.leading empty) c) :
    Holds α (E.run p c) (Reply.Proceeds text (p.nullable empty) c) := by
  have hrounds : ∀ c, room text c < E.rounds := fun c => by
    have := room_le text c
    omega
  induction p generalizing c with
  | text literal name => exact h.pure _ (matchText_ends hc literal name)
  | keyword word name => exact h.pure _ (matchKeyword_ends hc word name)
  | token shape name => exact h.pure _ (matchToken_ends hc shape name)
  | eof => exact h.pure _ (proceeds_of_leads rfl (matchEnd_ends hc))
  | pure value => exact h.pure _ (proceeds_of_leads rfl (ends_succeed.mpr (.refl hc)))
  | fail => exact h.pure _ ends_failure
  | map f p ih =>
    exact h.bind (ih hc hcall) fun reply hreply => h.pure _ (ends_map.mpr hreply)
  | seq p q ihp ihq =>
    have hfirst : Ready E Holds text empty (p.leading empty) c :=
      hcall.mono fun r hr => List.mem_append_left _ hr
    refine h.andThen_proceeds (ihp hc hfirst) fun f next hnext => ?_
    refine h.bind (ihq hnext.1.on (hcall.behind hnext)) fun reply hreply => ?_
    exact h.pure _ (ends_map.mpr hreply)
  | alt p q ihp ihq =>
    have hfirst : Ready E Holds text empty (p.leading empty) c :=
      hcall.mono fun r hr => List.mem_append_left _ hr
    have hsecond : Ready E Holds text empty (q.leading empty) c :=
      hcall.mono fun r hr => List.mem_append_right _ hr
    refine h.bind (ihp hc hfirst) fun reply hreply => ?_
    split
    · refine h.bind (ihq hc hsecond) fun other hother => ?_
      split
      · exact h.pure _ ends_failure
      · exact h.pure _ (ends_after.mpr (hother.mono fun hn => (Bool.or_eq_false_iff.mp hn).2))
    · exact h.pure _ (hreply.mono fun hn => (Bool.or_eq_false_iff.mp hn).1)
  | optional p ih =>
    refine h.bind (ih hc hcall) fun reply hreply => ?_
    split
    · exact h.pure _ (proceeds_of_leads rfl (ends_success.mpr (.refl hc)))
    · refine h.pure _ (proceeds_of_leads rfl (ends_map.mpr ?_))
      exact hreply.leads
  | many p ih =>
    have hstep : ∀ c', Cursor.Leads text c c' →
        Holds _ (E.run p c') fun reply => reply.Ends (Cursor.Leads text c') := fun c' hc' =>
      h.mono (ih hc'.on (hcall.next hc')) fun reply hreply => hreply.leads
    exact h.mono (h.repeated_proceeds hc (hrounds c) hstep) fun _ => proceeds_of_leads rfl
  | many1 p ih =>
    have hstep : ∀ c', Cursor.Leads text c c' →
        Holds _ (E.run p c') fun reply => reply.Ends (Cursor.Leads text c') := fun c' hc' =>
      h.mono (ih hc'.on (hcall.next hc')) fun reply hreply => hreply.leads
    refine h.bind (h.repeated_proceeds hc (hrounds c) hstep) fun reply hreply => ?_
    split
    · refine h.bind (ih hc hcall) fun first hfirst => ?_
      split
      · exact h.pure _ ends_failure
      · exact h.pure _ (proceeds_of_leads rfl hreply)
    · exact h.pure _ (proceeds_of_leads rfl hreply)
  | sepBy p separator ihp ihs =>
    have hfirst : Ready E Holds text empty (p.leading empty) c :=
      hcall.mono fun r hr => List.mem_append_left _ hr
    refine h.bind (ihp hc hfirst) fun first hreply => ?_
    obtain ⟨outcome, reach⟩ := first
    cases outcome with
    | failure pos committed =>
      cases committed with
      | none => exact h.pure _ (proceeds_of_leads rfl (ends_success.mpr (.refl hc)))
      | some message => exact h.pure _ ends_failure
    | success value next =>
      have hnext := ends_success.mp hreply
      have hstep : ∀ c', Cursor.Leads text next c' →
          Holds _ (andThen (E.run separator c') fun _ => E.run p) fun reply =>
            reply.Ends (Cursor.Leads text c') := fun c' hc' => by
        have hseparator := ihs hc'.on ((hcall.behind hnext).next hc')
        have hboth := h.andThen_proceeds hseparator fun _ last hlast =>
          ihp hlast.1.on (hfirst.next ((hnext.1.trans hc').trans hlast.1))
        exact h.mono hboth fun reply hreply => hreply.leads
      have hothers := h.repeated_proceeds hnext.1.on (hrounds next) hstep
      refine h.bind hothers fun others hothers => ?_
      obtain ⟨outcome, reach⟩ := others
      cases outcome with
      | failure pos committed => exact h.pure _ ends_failure
      | success values last =>
        refine h.pure _ (proceeds_of_leads rfl (ends_success.mpr ?_))
        exact hnext.1.trans (ends_success.mp hothers)
  | lookahead p ih =>
    refine h.bind (ih hc hcall) fun reply hreply => ?_
    split
    · exact h.pure _ (proceeds_of_leads rfl (ends_succeed.mpr (.refl hc)))
    · exact h.pure _ (proceeds_of_leads rfl hreply.leads)
  | notFollowedBy p name ih =>
    refine h.bind (ih hc hcall) fun reply hreply => ?_
    split
    · exact h.pure _ ends_miss
    · exact h.pure _ (proceeds_of_leads rfl (ends_succeed.mpr (.refl hc)))
  | label p name ih =>
    refine h.bind (ih hc hcall) fun reply hreply => ?_
    split
    · split
      · exact h.pure _ ends_miss
      · exact h.pure _ hreply
    · exact h.pure _ hreply
  | commit p message ih =>
    refine h.bind (ih hc hcall) fun reply hreply => ?_
    split
    · exact h.pure _ ends_failure
    · exact h.pure _ hreply
  | probe mark p ih => exact h.mark mark c.pos (ih hc hcall)
  | call r => exact hcall r c hc (.inr ⟨rfl, List.mem_singleton_self r⟩)

end Engine

/-! ### Depth of calls -/

namespace Grammar

variable {rank : S.Rule → Nat} {ranks : Nat} {text : List Char}

/-- How deep calls may still nest: a call that has advanced, or leads on to a rule of a lower rank
at the same place, is below the call it comes from. -/
def height (text : List Char) (rank : S.Rule → Nat) (ranks : Nat) (r : S.Rule) (pos : Nat) : Nat :=
  (text.length - pos) * ranks + rank r

theorem height_lt_of_advanced (hrank : ∀ r, rank r < ranks)
    (h : text.length - pos' < text.length - pos) :
    height text rank ranks r' pos' < height text rank ranks r pos := by
  have hstep : (text.length - pos' + 1) * ranks ≤ (text.length - pos) * ranks :=
    Nat.mul_le_mul_right ranks h
  rw [Nat.succ_mul] at hstep
  have := hrank r'
  unfold height
  omega

theorem height_lt (text : List Char) (hrank : ∀ r, rank r < ranks) (r : S.Rule) (pos : Nat) :
    height text rank ranks r pos < ranks * (text.length + 1) := by
  have hle : (text.length - pos) * ranks ≤ text.length * ranks :=
    Nat.mul_le_mul_right ranks (Nat.sub_le _ _)
  have := hrank r
  rw [Nat.mul_succ, Nat.mul_comm ranks]
  unfold height
  omega

theorem pos_lt_of_height_lt (h : height text rank ranks r pos' < height text rank ranks r pos) :
    pos < pos' := by
  have hmul : (text.length - pos') * ranks < (text.length - pos) * ranks := by
    unfold height at h
    omega
  have := Nat.lt_of_mul_lt_mul_right hmul
  omega

end Grammar
end AgentLang.Parse
