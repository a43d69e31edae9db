import AgentLang.Proofs.Grammar.Items

/-!
# Verdicts

What a parser of the language says about a text from a position on: it ends somewhere with a value,
it misses, or it fails for good. Every way of building parsers has an equation for its verdict, in
which neither memory nor budgets nor reported failures are left.
-/

namespace AgentLang.Grammar

open Parse (Cursor Reply Engine)
open Parse.Parser (choice)

variable {α β : Type} {text : List Char} {i n : Nat}

inductive Verdict (α : Type) where
  | ok (value : α) (next : Nat)
  | miss
  | dead

namespace Verdict

def map (f : α → β) : Verdict α → Verdict β
  | .ok value next => .ok (f value) next
  | .miss => .miss
  | .dead => .dead

def bind (v : Verdict α) (f : α → Nat → Verdict β) : Verdict β :=
  match v with
  | .ok value next => f value next
  | .miss => .miss
  | .dead => .dead

def orElse (v w : Verdict α) : Verdict α :=
  match v with
  | .miss => w
  | _ => v

section

variable {v : Verdict α} {w : Verdict α} {u : α}

@[simp] theorem map_eq_ok : v.map f = .ok b n ↔ ∃ a, v = .ok a n ∧ f a = b := by
  cases v <;> simp [map, and_comm]

@[simp] theorem map_eq_miss : v.map f = .miss ↔ v = .miss := by
  cases v <;> simp [map]

@[simp] theorem bind_eq_ok : v.bind f = .ok b n ↔ ∃ a m, v = .ok a m ∧ f a m = .ok b n := by
  cases v <;> simp [bind]

@[simp] theorem bind_eq_miss :
    v.bind f = .miss ↔ v = .miss ∨ ∃ a m, v = .ok a m ∧ f a m = .miss := by
  cases v <;> simp [bind]

@[simp] theorem orElse_eq_ok : v.orElse w = .ok u n ↔ v = .ok u n ∨ v = .miss ∧ w = .ok u n := by
  cases v <;> simp [orElse]

@[simp] theorem orElse_eq_miss : v.orElse w = .miss ↔ v = .miss ∧ w = .miss := by
  cases v <;> simp [orElse]

end

@[simp] theorem miss_orElse (v : Verdict α) : Verdict.miss.orElse v = v := rfl

theorem orElse_of_ne_miss {v w : Verdict α} (h : v ≠ .miss) : v.orElse w = v := by
  cases v <;> trivial

@[simp] theorem orElse_miss (v : Verdict α) : v.orElse .miss = v := by
  cases v <;> rfl

def ofReply (reply : Reply α) : Verdict α :=
  match reply.outcome with
  | .success value next => .ok value next.pos
  | .failure _ none => .miss
  | .failure _ (some _) => .dead

theorem ofReply_map (reply : Reply α) (f : α → β) :
    ofReply (reply.map f) = (ofReply reply).map f := by
  obtain ⟨_ | ⟨pos, _ | message⟩, reach⟩ := reply <;> rfl

theorem ofReply_after (reply : Reply α) (earlier : Parse.Reach) :
    ofReply (reply.after earlier) = ofReply reply := rfl

end Verdict

open Verdict

/-- The verdict of a parser on a text from a position on. -/
def read (text : List Char) (p : Parser α) (i : Nat) : Verdict α :=
  match run? p text i with
  | some reply => ofReply reply
  | none => .miss

theorem read_eq_of_run? (h : run? p text i = some reply) : read text p i = ofReply reply := by
  rw [read, h]

theorem read_eq_of_plain {depth : Nat} (hc : c.On text)
    (h : (grammar.plain (text.length + 2) depth).run p c = some reply) :
    read text p c.pos = ofReply reply :=
  read_eq_of_run? (run?_of_plain hc h)

theorem exists_plain (text : List Char) (p : Parser α) (i : Nat) : ∃ depth reply,
    (grammar.plain (text.length + 2) depth).run p (Cursor.ofPos text i) = some reply ∧
      read text p i = ofReply reply := by
  obtain ⟨reply, hrun⟩ := exists_run? p text i
  obtain ⟨depth, hplain⟩ := eval_of_run? hrun
  exact ⟨depth, reply, hplain, read_eq_of_run? hrun⟩

/-- A parser that begins by running another one goes on with its reply. -/
theorem exists_first (q : Parser β) (p : Parser α) {f : Nat → Reply α → Option (Reply β)}
    (h : ∀ depth, (grammar.plain (text.length + 2) depth).run q (Cursor.ofPos text i) =
      ((grammar.plain (text.length + 2) depth).run p (Cursor.ofPos text i)).bind (f depth)) :
    ∃ depth reply first, read text q i = ofReply reply ∧ read text p i = ofReply first ∧
      (grammar.plain (text.length + 2) depth).run p (Cursor.ofPos text i) = some first ∧
      f depth first = some reply := by
  obtain ⟨depth, reply, hplain, hread⟩ := exists_plain text q i
  rw [h depth] at hplain
  obtain ⟨first, hfirst, hrest⟩ := Option.bind_eq_some_iff.mp hplain
  exact ⟨depth, reply, first, hread, read_eq_of_plain (Cursor.on_ofPos text i) hfirst, hfirst, hrest⟩

theorem leads_of_plain {depth : Nat} (hc : c.On text)
    (h : (grammar.plain (text.length + 2) depth).run p c = some reply) :
    reply.Proceeds text (p.nullable fun _ => false) c :=
  Parse.Grammar.eval_proceeds (fun r _ => body_not_nullable r) (Nat.le_refl _) p hc reply h

theorem on_of_plain {depth : Nat} (hc : c.On text)
    (h : (grammar.plain (text.length + 2) depth).run p c = some ⟨.success v next, reach⟩) :
    next.On text :=
  (Parse.Reply.ends_success.mp (leads_of_plain hc h)).1.on

theorem read_bounds (h : read text p i = .ok v n) (hi : i ≤ text.length) :
    i ≤ n ∧ n ≤ text.length ∧ (p.nullable (fun _ => false) = false → i < n) := by
  obtain ⟨depth, reply, hplain, hread⟩ := exists_plain text p i
  have hleads := leads_of_plain (Cursor.on_ofPos text i) hplain
  obtain ⟨⟨value, next⟩ | ⟨pos, _ | message⟩, reach⟩ := reply
  · cases h.symm.trans hread
    have hnext := Parse.Reply.ends_success.mp hleads
    exact ⟨(hnext.1.inside hi).1, (hnext.1.inside hi).2, hnext.2⟩
  · cases h.symm.trans hread
  · cases h.symm.trans hread

/-- A parser that always takes something takes nothing past the end of a text. -/
theorem le_of_read (hp : p.nullable (fun _ => false) = false) (h : read text p i = .ok v n) :
    i ≤ text.length := by
  obtain ⟨depth, ⟨outcome, reach⟩, hplain, hread⟩ := exists_plain text p i
  have hleads := leads_of_plain (Cursor.on_ofPos text i) hplain
  cases outcome with
  | failure pos committed => cases committed <;> cases h.symm.trans hread
  | success value next =>
    obtain ⟨hnext, hmoves⟩ := Parse.Reply.ends_success.mp hleads
    by_contra hlt
    have hpos := hmoves hp
    have houtside := hnext.outside (Nat.lt_of_not_le hlt)
    simp only [Cursor.ofPos] at hpos houtside
    omega

theorem run?_of_read (h : read text p i = .ok v n) :
    ∃ reach, run? p text i = some ⟨.success v (Cursor.ofPos text n), reach⟩ := by
  obtain ⟨⟨outcome, reach⟩, hrun⟩ := exists_run? p text i
  have hread := h.symm.trans (read_eq_of_run? hrun)
  cases outcome with
  | failure pos committed => cases committed <;> cases hread
  | success value next =>
    have hon := on_of_run? hrun
    obtain ⟨rfl, rfl⟩ := Verdict.ok.inj hread
    exact ⟨reach, hrun.trans (by rw [← hon])⟩

/-! ### Equations -/

theorem read_map (f : α → β) (p : Parser α) : read text (.map f p) i = (read text p i).map f := by
  obtain ⟨depth, reply, hplain, hread⟩ := exists_plain text (.map f p) i
  obtain ⟨inner, hinner, hreply⟩ := Option.bind_eq_some_iff.mp hplain
  cases hreply
  have hp := read_eq_of_plain (Cursor.on_ofPos text i) hinner
  rw [hread, ofReply_map, ← hp]
  rfl

theorem read_seq (p : Parser (α → β)) (q : Parser α) :
    read text (.seq p q) i = (read text p i).bind fun f n => (read text q n).map f := by
  obtain ⟨depth, reply, first, hread, hp, hfirst, hrest⟩ := exists_first (.seq p q) p fun _ => rfl
  rw [hread, hp]
  obtain ⟨⟨f, next⟩ | ⟨pos, _ | message⟩, reach⟩ := first
  · obtain ⟨other, hother, hreply⟩ := Option.bind_eq_some_iff.mp hrest
    obtain ⟨second, hsecond, hmap⟩ := Option.bind_eq_some_iff.mp hother
    cases hreply
    cases hmap
    have hq := read_eq_of_plain (on_of_plain (Cursor.on_ofPos text i) hfirst) hsecond
    rw [ofReply_after, ofReply_map, ← hq]
    rfl
  · cases hrest
    rfl
  · cases hrest
    rfl

theorem read_skip (p : Parser α) (q : Parser β) :
    read text (p *> q) i = (read text p i).bind fun _ n => read text q n := by
  change read text (.seq (.map (Function.const α id) p) q) i = _
  rw [read_seq, read_map]
  cases read text p i with
  | ok v n =>
    dsimp only [Verdict.map, Verdict.bind]
    cases read text q n <;> rfl
  | miss | dead => rfl

theorem read_keep (p : Parser α) (q : Parser β) :
    read text (p <* q) i = (read text p i).bind fun v n => (read text q n).map fun _ => v := by
  change read text (.seq (.map (Function.const β) p) q) i = _
  rw [read_seq, read_map]
  cases read text p i <;> rfl

theorem read_alt (p q : Parser α) :
    read text (.alt p q) i = (read text p i).orElse (read text q i) := by
  obtain ⟨depth, reply, first, hread, hp, hfirst, hrest⟩ := exists_first (.alt p q) p fun _ => rfl
  rw [hread, hp]
  obtain ⟨⟨f, next⟩ | ⟨pos, _ | message⟩, reach⟩ := first
  · cases hrest
    rfl
  · obtain ⟨other, hother, hreply⟩ := Option.bind_eq_some_iff.mp hrest
    have hq : read text q i = _ := read_eq_of_plain (Cursor.on_ofPos text i) hother
    rw [hq]
    obtain ⟨⟨f, next⟩ | ⟨pos, _ | message⟩, reach⟩ := other <;> cases hreply <;> rfl
  · cases hrest
    rfl

theorem read_fail : read text (.fail : Parser α) i = .miss := by
  obtain ⟨depth, reply, hplain, hread⟩ := exists_plain text (.fail : Parser α) i
  cases hplain
  exact hread

theorem read_pure (value : α) : read text (.pure value) i = .ok value i := by
  obtain ⟨depth, reply, hplain, hread⟩ := exists_plain text (.pure value : Parser α) i
  cases hplain
  exact hread

/-! The same in the form in which the grammar is written. -/

theorem read_fmap (f : α → β) (p : Parser α) :
    read text (f <$> p) i = (read text p i).map f := read_map f p

theorem read_ap (p : Parser (α → β)) (q : Parser α) :
    read text (p <*> q) i = (read text p i).bind fun f n => (read text q n).map f := read_seq p q

theorem read_choice_nil : read text (choice [] : Parser α) i = .miss := read_fail

theorem read_choice_cons (p : Parser α) (ps : List (Parser α)) :
    read text (choice (p :: ps)) i =
      (read text p i).orElse (read text (choice ps) i) := read_alt p _

theorem read_optional (p : Parser α) :
    read text (.optional p) i = ((read text p i).map some).orElse (.ok none i) := by
  obtain ⟨depth, reply, first, hread, hp, hfirst, hrest⟩ := exists_first (.optional p) p fun _ => rfl
  rw [hread, hp]
  obtain ⟨⟨f, next⟩ | ⟨pos, _ | message⟩, reach⟩ := first <;> cases hrest <;> rfl

theorem read_lookahead (p : Parser α) :
    read text (.lookahead p) i = (read text p i).bind fun value _ => .ok value i := by
  obtain ⟨depth, reply, first, hread, hp, hfirst, hrest⟩ := exists_first (.lookahead p) p fun _ => rfl
  rw [hread, hp]
  obtain ⟨⟨f, next⟩ | ⟨pos, _ | message⟩, reach⟩ := first <;> cases hrest <;> rfl

theorem read_notFollowedBy (p : Parser α) (name : String) :
    read text (.notFollowedBy p name) i =
      match read text p i with
      | .ok _ _ => .miss
      | _ => .ok () i := by
  obtain ⟨depth, reply, first, hread, hp, hfirst, hrest⟩ :=
    exists_first (.notFollowedBy p name) p fun _ => rfl
  rw [hread, hp]
  obtain ⟨⟨f, next⟩ | ⟨pos, _ | message⟩, reach⟩ := first <;> cases hrest <;> rfl

theorem read_label (p : Parser α) (name : String) : read text (.label p name) i = read text p i := by
  obtain ⟨depth, reply, first, hread, hp, hfirst, hrest⟩ := exists_first (.label p name) p fun _ => rfl
  rw [hread, hp]
  obtain ⟨⟨f, next⟩ | ⟨pos, _ | message⟩, reach⟩ := first
  · cases hrest
    rfl
  · dsimp only at hrest
    split at hrest <;> cases hrest <;> rfl
  · cases hrest
    rfl

theorem read_commit (p : Parser α) (message : String) :
    read text (.commit p message) i = (read text p i).orElse .dead := by
  obtain ⟨depth, reply, first, hread, hp, hfirst, hrest⟩ :=
    exists_first (.commit p message) p fun _ => rfl
  rw [hread, hp]
  obtain ⟨⟨f, next⟩ | ⟨pos, _ | message⟩, reach⟩ := first <;> cases hrest <;> rfl

theorem read_probe (mark : String) (p : Parser α) :
    read text (.probe mark p) i = read text p i := by
  obtain ⟨depth, reply, hplain, hread⟩ := exists_plain text (.probe mark p) i
  have hp : (grammar.plain (text.length + 2) depth).run p (Cursor.ofPos text i) = some reply := hplain
  exact hread.trans (read_eq_of_plain (Cursor.on_ofPos text i) hp).symm

theorem read_call (r : Rule) :
    read text (Parse.Parser.call (S := language) r) i = read text (bodyOf r) i := by
  obtain ⟨depth, reply, hplain, hread⟩ := exists_plain text (Parse.Parser.call (S := language) r) i
  cases depth with
  | zero => cases hplain
  | succ depth =>
    have hbody : (grammar.plain (text.length + 2) depth).run (bodyOf r) (Cursor.ofPos text i) =
        some reply := hplain
    exact hread.trans (read_eq_of_plain (Cursor.on_ofPos text i) hbody).symm

section

theorem read_argument : read text argument i = read text argumentBody i := read_call .argument
theorem read_statement : read text statement i = read text statementBody i := read_call .statement
theorem read_armBody : read text armBody i = read text armBodyBody i := read_call .armBody
theorem read_ifElse : read text ifElse i = read text ifElseBody i := read_call .ifElse
theorem read_number : read text number i = read text numberLiteral i := read_call .number
theorem read_scalar : read text scalar i = read text scalarLiteral i := read_call .scalar
theorem read_callRule : read text call i = read text callBody i := read_call .call
theorem read_array : read text array i = read text arrayBody i := read_call .array
theorem read_object : read text object i = read text objectBody i := read_call .object
theorem read_prompt : read text prompt i = read text promptBody i := read_call .prompt
theorem read_literal : read text literal i = read text literalBody i := read_call .literal
theorem read_access : read text access i = read text accessBody i := read_call .access
theorem read_operand : read text operand i = read text operandBody i := read_call .operand
theorem read_binary : read text binary i = read text binaryBody i := read_call .binary
theorem read_value : read text value i = read text valueBody i := read_call .value
theorem read_condition : read text condition i = read text conditionBody i := read_call .condition

end

/-! ### Spans -/

/-- The parser reads something between two places of a text. -/
def Spans (text : List Char) (p : Parser α) (i n : Nat) : Prop :=
  ∃ v, read text p i = .ok v n

section

variable {p : Parser α} {m : Nat}

theorem Spans.unique (h : Spans text p i n) (h' : Spans text p i m) : n = m := by
  obtain ⟨v, h⟩ := h
  obtain ⟨v', h'⟩ := h'
  cases h.symm.trans h'
  rfl

theorem Spans.ne_miss (h : Spans text p i n) : read text p i ≠ .miss := by
  obtain ⟨v, h⟩ := h
  rw [h]
  exact nofun

theorem Spans.bounds (h : Spans text p i n) (hi : i ≤ text.length) :
    i ≤ n ∧ n ≤ text.length ∧ (p.nullable (fun _ => false) = false → i < n) := by
  obtain ⟨v, h⟩ := h
  exact read_bounds h hi

theorem Spans.inside (h : Spans text p i n) (hi : i ≤ text.length) : n ≤ text.length :=
  (h.bounds hi).2.1

theorem spans_congr {q : Parser α} (h : read text p i = read text q i) :
    Spans text p i n ↔ Spans text q i n := by
  rw [Spans, h, Spans]

@[simp] theorem spans_fmap {f : α → β} : Spans text (f <$> p) i n ↔ Spans text p i n := by
  simp only [Spans, read_fmap, map_eq_ok]
  exact ⟨fun ⟨_, v, h, _⟩ => ⟨v, h⟩, fun ⟨v, h⟩ => ⟨_, v, h, rfl⟩⟩

@[simp] theorem spans_skip {q : Parser β} :
    Spans text (p *> q) i n ↔ ∃ m, Spans text p i m ∧ Spans text q m n := by
  simp only [Spans, read_skip, bind_eq_ok]
  exact ⟨fun ⟨v, u, m, h, h'⟩ => ⟨m, ⟨u, h⟩, v, h'⟩, fun ⟨m, ⟨u, h⟩, v, h'⟩ => ⟨v, u, m, h, h'⟩⟩

@[simp] theorem spans_keep {q : Parser β} :
    Spans text (p <* q) i n ↔ ∃ m, Spans text p i m ∧ Spans text q m n := by
  simp only [Spans, read_keep, bind_eq_ok, map_eq_ok]
  exact ⟨fun ⟨v, u, m, h, w, h', _⟩ => ⟨m, ⟨u, h⟩, w, h'⟩,
    fun ⟨m, ⟨u, h⟩, w, h'⟩ => ⟨_, u, m, h, w, h', rfl⟩⟩

@[simp] theorem spans_ap {p : Parser (α → β)} {q : Parser α} :
    Spans text (p <*> q) i n ↔ ∃ m, Spans text p i m ∧ Spans text q m n := by
  simp only [Spans, read_ap, bind_eq_ok, map_eq_ok]
  exact ⟨fun ⟨v, u, m, h, w, h', _⟩ => ⟨m, ⟨u, h⟩, w, h'⟩,
    fun ⟨m, ⟨u, h⟩, w, h'⟩ => ⟨_, u, m, h, w, h', rfl⟩⟩

@[simp] theorem spans_choice_cons :
    Spans text (choice (p :: ps)) i n ↔
      Spans text p i n ∨ read text p i = .miss ∧ Spans text (choice ps) i n := by
  simp only [Spans, read_choice_cons, orElse_eq_ok]
  exact ⟨fun ⟨v, h⟩ => h.imp (fun h => ⟨v, h⟩) fun h => ⟨h.1, v, h.2⟩,
    fun h => h.elim (fun ⟨v, h⟩ => ⟨v, .inl h⟩) fun ⟨hmiss, v, h⟩ => ⟨v, .inr ⟨hmiss, h⟩⟩⟩

@[simp] theorem spans_choice_nil : ¬Spans text (choice [] : Parser α) i n := by
  rintro ⟨v, h⟩
  cases h.symm.trans read_choice_nil

theorem spans_choice_one : Spans text (choice [p]) i n ↔ Spans text p i n := by
  simp

theorem spans_choice_more : Spans text (choice (p :: q :: ps)) i n ↔
    Spans text p i n ∨ read text p i = .miss ∧ Spans text (choice (q :: ps)) i n :=
  spans_choice_cons

theorem choice_spans (h : Spans text (choice ps) i n) :
    ∃ p ∈ ps, Spans text p i n := by
  induction ps with
  | nil => exact absurd h spans_choice_nil
  | cons p ps ih =>
    rcases spans_choice_cons.mp h with hspans | ⟨-, hspans⟩
    · exact ⟨p, List.mem_cons_self, hspans⟩
    · obtain ⟨q, hq, hspans⟩ := ih hspans
      exact ⟨q, List.mem_cons_of_mem p hq, hspans⟩

@[simp] theorem spans_optional :
    Spans text (.optional p) i n ↔ Spans text p i n ∨ read text p i = .miss ∧ n = i := by
  simp only [Spans, read_optional, orElse_eq_ok, map_eq_ok, map_eq_miss]
  constructor
  · rintro ⟨_, ⟨v, h, -⟩ | ⟨hmiss, h⟩⟩
    · exact .inl ⟨v, h⟩
    · cases h
      exact .inr ⟨hmiss, rfl⟩
  · rintro (⟨v, h⟩ | ⟨hmiss, rfl⟩)
    · exact ⟨_, .inl ⟨v, h, rfl⟩⟩
    · exact ⟨none, .inr ⟨hmiss, rfl⟩⟩

end

/-! ### Repetition -/

theorem repeated_succ {depth : Nat}
    (h : (grammar.plain (text.length + 2) depth).repeated step rounds c = some reply) :
    (grammar.plain (text.length + 2) depth).repeated step (rounds + 1) c = some reply := by
  induction rounds generalizing c reply with
  | zero => cases h
  | succ rounds ih =>
    obtain ⟨first, hfirst, hothers⟩ := Option.bind_eq_some_iff.mp h
    refine Option.bind_eq_some_iff.mpr ⟨first, hfirst, ?_⟩
    obtain ⟨⟨value, next⟩ | ⟨pos, _ | message⟩, reach⟩ := first
    · dsimp only at hothers ⊢
      split at hothers
      next hstays =>
        rw [if_pos hstays]
        exact hothers
      next hmoves =>
        obtain ⟨others, hrest, hreply⟩ := Option.bind_eq_some_iff.mp hothers
        rw [if_neg hmoves]
        exact Option.bind_eq_some_iff.mpr ⟨others, ih hrest, hreply⟩
    · exact hothers
    · exact hothers

/-- A repetition reads one item and then goes on, unless the item is missing or empty. -/
theorem read_many (p : Parser α) :
    read text (.many p) i =
      match read text p i with
      | .ok v n => if n = i then .ok [] i else (read text (.many p) n).map (v :: ·)
      | .miss => .ok [] i
      | .dead => .dead := by
  obtain ⟨depth, reply, first, hread, hp, hfirst, hrest⟩ := exists_first (.many p) p fun _ => rfl
  rw [hread, hp]
  obtain ⟨⟨v, next⟩ | ⟨pos, _ | message⟩, reach⟩ := first
  · dsimp only at hrest
    split at hrest
    next hstays =>
      cases hrest
      exact (if_pos hstays).symm
    next hmoves =>
      obtain ⟨others, hothers, hreply⟩ := Option.bind_eq_some_iff.mp hrest
      cases hreply
      have hmany : (grammar.plain (text.length + 2) depth).run (.many p) next = some others :=
        repeated_succ hothers
      have hnext := read_eq_of_plain (on_of_plain (Cursor.on_ofPos text i) hfirst) hmany
      rw [ofReply_after, ofReply_map, ← hnext]
      exact (if_neg hmoves).symm
  · cases hrest
    rfl
  · cases hrest
    rfl

theorem read_many1_eq (p : Parser α) :
    read text (.many1 p) i =
      match read text (.many p) i with
      | .ok [] n => (read text p i).bind fun _ _ => .ok [] n
      | v => v := by
  obtain ⟨depth, reply, hplain, hread⟩ := exists_plain text (.many1 p) i
  obtain ⟨all, hall, hrest⟩ := Option.bind_eq_some_iff.mp hplain
  have hmany : (grammar.plain (text.length + 2) depth).run (.many p) (Cursor.ofPos text i) =
      some all := hall
  have hp : read text (.many p) i = _ := read_eq_of_plain (Cursor.on_ofPos text i) hmany
  rw [hread, hp]
  obtain ⟨⟨_ | ⟨v, values⟩, next⟩ | ⟨pos, _ | message⟩, reach⟩ := all
  · obtain ⟨first, hfirst, hreply⟩ := Option.bind_eq_some_iff.mp hrest
    have hone : read text p i = _ := read_eq_of_plain (Cursor.on_ofPos text i) hfirst
    dsimp only [ofReply]
    rw [hone]
    obtain ⟨⟨v, next⟩ | ⟨pos, _ | message⟩, reach⟩ := first <;> cases hreply <;> rfl
  · cases hrest
    rfl
  · cases hrest
    rfl
  · cases hrest
    rfl

/-- A repetition of at least one item, none of which is empty. -/
theorem read_many1 (hi : i ≤ text.length) (hp : p.nullable (fun _ => false) = false) :
    read text (.many1 p) i = read text (.seq (.map List.cons p) (.many p)) i := by
  rw [read_many1_eq, read_many, read_seq, read_map]
  cases hfirst : read text p i with
  | ok v n =>
    have hne : n ≠ i := Nat.ne_of_gt ((read_bounds hfirst hi).2.2 hp)
    dsimp only [Verdict.map, Verdict.bind]
    rw [if_neg hne]
    cases read text (.many p) n <;> rfl
  | miss | dead => rfl

/-- A list is one item and a repetition of the others with their separators. -/
theorem read_sepBy (p : Parser α) (separator : Parser β) :
    read text (.sepBy p separator) i =
      match read text p i with
      | .ok v n => (read text (.many (separator *> p)) n).map (v :: ·)
      | .miss => .ok [] i
      | .dead => .dead := by
  obtain ⟨depth, reply, first, hread, hp, hfirst, hrest⟩ :=
    exists_first (.sepBy p separator) p fun _ => rfl
  rw [hread, hp]
  obtain ⟨⟨v, next⟩ | ⟨pos, _ | message⟩, reach⟩ := first
  · obtain ⟨others, hothers, hreply⟩ := Option.bind_eq_some_iff.mp hrest
    have hstep : (grammar.plain (text.length + 2) depth).run (separator *> p) = fun c =>
        Engine.andThen ((grammar.plain (text.length + 2) depth).run separator c)
          fun _ => (grammar.plain (text.length + 2) depth).run p := by
      funext c
      exact Engine.run_right separator p c
    have hmany : (grammar.plain (text.length + 2) depth).run (.many (separator *> p)) next =
        some others := by
      rw [← hothers, ← hstep]
      rfl
    have hnext := read_eq_of_plain (on_of_plain (Cursor.on_ofPos text i) hfirst) hmany
    dsimp only [ofReply]
    rw [hnext]
    obtain ⟨⟨values, next⟩ | ⟨pos, _ | message⟩, reach⟩ := others <;> cases hreply <;> rfl
  · cases hrest
    rfl
  · cases hrest
    rfl

theorem spans_sepBy {p : Parser α} {separator : Parser β} :
    Spans text (.sepBy p separator) i n ↔
      (∃ m, Spans text p i m ∧ Spans text (.many (separator *> p)) m n) ∨
        read text p i = .miss ∧ n = i := by
  simp only [Spans, read_sepBy]
  cases hfirst : read text p i with
  | ok v m =>
    simp only [map_eq_ok, Verdict.ok.injEq, reduceCtorEq, false_and, or_false]
    constructor
    · rintro ⟨_, vs, hothers, -⟩
      exact ⟨m, ⟨v, rfl, rfl⟩, vs, hothers⟩
    · rintro ⟨m, ⟨v, rfl, rfl⟩, vs, hothers⟩
      exact ⟨_, vs, hothers, rfl⟩
  | miss => simp [eq_comm]
  | dead => simp

theorem Spans.many_iff (h : Spans text p i m) (hm : m ≠ i) :
    Spans text (.many p) i n ↔ Spans text (.many p) m n := by
  obtain ⟨v, h⟩ := h
  simp only [Spans, read_many (i := i), h, if_neg hm, map_eq_ok]
  exact ⟨fun ⟨_, vs, hothers, _⟩ => ⟨vs, hothers⟩, fun ⟨vs, hothers⟩ => ⟨_, vs, hothers, rfl⟩⟩

theorem Spans.many_of_miss (h : Spans text (.many p) i n) (hmiss : read text p i = .miss) :
    n = i := by
  obtain ⟨v, h⟩ := h
  rw [read_many, hmiss] at h
  cases h
  rfl

/-! ### Terminals -/

theorem read_text (hi : i ≤ text.length) (literal : List Char) (name : String) :
    read text (.text literal name) i =
      if literal.isPrefixOf (text.drop i) then .ok (String.ofList literal) (i + literal.length)
      else .miss := by
  obtain ⟨depth, reply, hplain, hread⟩ := exists_plain text (.text literal name) i
  cases hplain
  have hexcess : i - text.length = 0 := by omega
  simp only [hread, Engine.matchText, Cursor.startsWith, Cursor.ofPos, hexcess]
  simp only [BEq.rfl, Bool.true_and]
  split <;> rfl

theorem read_keyword (hi : i ≤ text.length) (word : List Char) (name : String) :
    read text (.keyword word name) i =
      if word.isPrefixOf (text.drop i) ∧
          ((text.drop i).drop word.length).head?.any Engine.isWordChar = false
      then .ok (String.ofList word) (i + word.length) else .miss := by
  obtain ⟨depth, reply, hplain, hread⟩ := exists_plain text (.keyword word name) i
  cases hplain
  have hexcess : i - text.length = 0 := by omega
  simp only [hread, Engine.matchKeyword, Cursor.startsWith, Cursor.ofPos, hexcess]
  simp only [BEq.rfl, Bool.true_and, Bool.and_eq_true, Bool.not_eq_true']
  split <;> rfl

theorem read_token (hi : i ≤ text.length) (shape : Parse.Pattern) (name : String) :
    read text (.token shape name) i =
      match shape.match? (text.drop i) with
      | some taken => .ok (String.ofList ((text.drop i).take taken)) (i + taken)
      | none => .miss := by
  obtain ⟨depth, reply, hplain, hread⟩ := exists_plain text (.token shape name) i
  cases hplain
  have hexcess : i - text.length = 0 := by omega
  simp only [hread, Engine.matchToken, Cursor.ofPos, hexcess]
  cases shape.match? (text.drop i) <;> rfl

theorem read_eof : read text .eof i = if text.length ≤ i then .ok () i else .miss := by
  obtain ⟨depth, reply, hplain, hread⟩ := exists_plain text .eof i
  cases hplain
  simp only [hread, Engine.matchEnd, Cursor.ofPos, List.isEmpty_iff, List.drop_eq_nil_iff]
  split <;> rfl

/-! ### Tokens are read like parsers -/

section

variable {first second item : Parse.Pattern} {literal : List Char} {name : String}

theorem read_token_exactly (hi : i ≤ text.length) :
    read text (.token (.exactly literal) name) i = read text (.text literal name) i := by
  rw [read_token hi, read_text hi, Parse.Pattern.match?]
  split
  next k hmatch =>
    split at hmatch
    next hstarts =>
      cases hmatch
      obtain ⟨tail, htail⟩ := List.isPrefixOf_iff_prefix.mp hstarts
      rw [if_pos hstarts, ← htail, List.take_left']
      rfl
    next => cases hmatch
  next hmatch =>
    split at hmatch
    next => cases hmatch
    next hstarts => exact (if_neg hstarts).symm

theorem read_token_seq (hi : i ≤ text.length) :
    read text (.token (.seq first second) name) i =
      read text (.seq (.map (· ++ ·) (.token first name)) (.token second name)) i := by
  rw [read_seq, read_map, read_token hi, read_token hi, Parse.Pattern.match?]
  cases hfirst : first.match? (text.drop i) with
  | none => rfl
  | some k =>
    have hk := (Parse.Pattern.match?_accepts hfirst).1
    rw [List.length_drop] at hk
    dsimp only [Option.bind_some, Verdict.map, Verdict.bind]
    rw [read_token (by omega), List.drop_drop]
    cases second.match? (text.drop (i + k)) with
    | none => rfl
    | some k' =>
      dsimp only [Option.map_some, Verdict.map]
      rw [List.take_add, List.drop_drop, String.ofList_append, Nat.add_assoc]

theorem read_token_alt (hi : i ≤ text.length) :
    read text (.token (.alt first second) name) i =
      read text (.alt (.token first name) (.token second name)) i := by
  rw [read_alt, read_token hi, read_token hi, read_token hi, Parse.Pattern.match?]
  cases first.match? (text.drop i) <;> rfl

theorem repeated_eq (step : List Char → Option Nat) (rest : List Char)
    (hstep : ∀ k, step rest = some k → k ≤ rest.length) :
    Parse.Pattern.repeated step rest 0 =
      match step rest with
      | some (k + 1) => k + 1 + Parse.Pattern.repeated step (rest.drop (k + 1)) 0
      | _ => 0 := by
  cases rest with
  | nil =>
    split
    next k hk => exact absurd (hstep _ hk) (Nat.not_succ_le_zero k)
    next => rfl
  | cons c rest =>
    rw [Parse.Pattern.repeated]
    cases hk : step (c :: rest) with
    | none => rfl
    | some k =>
      cases k with
      | zero => rfl
      | succ k =>
        have hle : k ≤ rest.length := by simpa using hstep _ hk
        dsimp only
        rw [Parse.Pattern.repeated_ahead step rest k hle, List.drop_succ_cons]
        exact Nat.add_right_comm k _ 1

/-- The characters that a list of pieces is made of. -/
def joined (pieces : List String) : String :=
  pieces.foldr (· ++ ·) ""

theorem read_token_star (hi : i ≤ text.length) :
    read text (.token (.star item) name) i =
      read text (.map joined (.many (.token item name))) i := by
  induction hleft : text.length - i using Nat.strongRecOn generalizing i with
  | ind left ih =>
    rw [read_map, read_many, read_token hi, read_token hi, Parse.Pattern.match?, repeated_eq]
    · cases hitem : item.match? (text.drop i) with
      | none => rfl
      | some k =>
        have hk := (Parse.Pattern.match?_accepts hitem).1
        rw [List.length_drop] at hk
        cases k with
        | zero => simp [Verdict.map, joined]
        | succ k =>
          have hrest := ih _ (by omega) (show i + (k + 1) ≤ text.length by omega) rfl
          rw [read_map, read_token (by omega), Parse.Pattern.match?] at hrest
          have hne : i + (k + 1) ≠ i := by omega
          obtain ⟨pieces, hpieces, hjoined⟩ := map_eq_ok.mp hrest.symm
          dsimp only
          rw [if_neg hne, hpieces, List.take_add, String.ofList_append, List.drop_drop, ← hjoined]
          simp only [Verdict.map, joined, List.foldr_cons, Verdict.ok.injEq, true_and]
          exact (Nat.add_assoc i (k + 1) _).symm
    · intro k hk
      exact (Parse.Pattern.match?_accepts hk).1

end

end AgentLang.Grammar
