import AgentLang.Parse.Run
import AgentLang.Proofs.Parse.Pattern

/-!
# Positions

All cursors of one text are known by their positions, and a parser leads from a cursor of the text
to another one. Inside the text it never goes back. From past the end it stays or comes back to the
end, which happens at most once.
-/

namespace AgentLang.Parse

namespace Cursor

variable {text : List Char} {c next last : Cursor}

/-- The cursor is the one of its position in the text. -/
def On (text : List Char) (c : Cursor) : Prop :=
  c = ofPos text c.pos

theorem on_ofPos (text : List Char) (pos : Nat) : (ofPos text pos).On text := rfl

theorem On.rest_eq (hc : c.On text) : c.rest = text.drop c.pos := congrArg Cursor.rest hc

theorem On.excess_eq (hc : c.On text) : c.excess = c.pos - text.length :=
  congrArg Cursor.excess hc

theorem On.rest_length (hc : c.On text) : c.rest.length = text.length - c.pos := by
  rw [hc.rest_eq, List.length_drop]

theorem On.advance (hc : c.On text) (h : c.pos + count ≤ text.length) :
    (c.advance count).On text := by
  have hexcess : c.excess = c.pos + count - text.length := by
    have := hc.excess_eq
    omega
  rw [On, Cursor.advance, ofPos, hc.rest_eq, hexcess, List.drop_drop]

theorem On.clamp (hc : c.On text) : c.clamp.On text := by
  have hpos : c.pos - c.excess = min c.pos text.length := by
    have := hc.excess_eq
    omega
  have hrest : c.rest = text.drop (min c.pos text.length) := by
    rw [hc.rest_eq]
    rcases Nat.le_total c.pos text.length with h | h
    · rw [Nat.min_eq_left h]
    · rw [Nat.min_eq_right h, List.drop_length, List.drop_eq_nil_of_le h]
  have hexcess : 0 = min c.pos text.length - text.length := by omega
  rw [On, Cursor.clamp, ofPos, hpos, ← hrest, ← hexcess]

theorem On.clamp_pos (hc : c.On text) : c.clamp.pos = min c.pos text.length := by
  have := hc.excess_eq
  simp only [Cursor.clamp]
  omega

/-- Where a parser that starts at `c` may stop. -/
structure Leads (text : List Char) (c next : Cursor) : Prop where
  on : next.On text
  inside : c.pos ≤ text.length → c.pos ≤ next.pos ∧ next.pos ≤ text.length
  outside : text.length < c.pos → next.pos = c.pos ∨ next.pos = text.length

theorem Leads.refl (hc : c.On text) : Leads text c c :=
  ⟨hc, fun h => ⟨Nat.le_refl _, h⟩, fun _ => .inl rfl⟩

theorem Leads.trans (h₁ : Leads text c next) (h₂ : Leads text next last) : Leads text c last := by
  refine ⟨h₂.on, fun h => ?_, fun h => ?_⟩
  · have hn := h₁.inside h
    have hl := h₂.inside hn.2
    omega
  · rcases h₁.outside h with hn | hn
    · rw [← hn]
      exact h₂.outside (hn ▸ h)
    · have := h₂.inside (Nat.le_of_eq hn)
      omega

theorem Leads.left_le (h : Leads text c next) : text.length - next.pos ≤ text.length - c.pos := by
  rcases Nat.lt_or_ge text.length c.pos with hlt | hge
  · have := h.outside hlt
    omega
  · have := h.inside hge
    omega

theorem Leads.left_lt (h : Leads text c next) (hlt : c.pos < next.pos) :
    text.length - next.pos < text.length - c.pos := by
  rcases Nat.lt_or_ge text.length c.pos with hout | hin
  · have := h.outside hout
    omega
  · have := h.inside hin
    omega

theorem Leads.lt_trans (h₁ : Leads text c next) (h₂ : Leads text next last)
    (hlt : c.pos < next.pos ∨ next.pos < last.pos) : c.pos < last.pos := by
  rcases Nat.lt_or_ge text.length c.pos with hout | hin
  · have := h₁.left_le
    have := h₁.outside hout
    rcases hlt with hlt | hlt
    · omega
    · have := h₂.left_lt hlt
      omega
  · have := h₁.inside hin
    have := h₂.inside this.2
    omega

end Cursor

namespace Reply

variable {α β : Type}

/-- A success of the reply ends at a cursor of the given kind. -/
def Ends (reply : Reply α) (P : Cursor → Prop) : Prop :=
  ∀ value next, reply.outcome = .success value next → P next

variable {P Q : Cursor → Prop}

@[simp] theorem ends_success {reach : Reach} :
    (⟨.success value next, reach⟩ : Reply α).Ends P ↔ P next := by
  simp [Ends]

@[simp] theorem ends_failure {reach : Reach} :
    (⟨.failure pos committed, reach⟩ : Reply α).Ends P := by
  simp [Ends]

@[simp] theorem ends_succeed : (succeed value next).Ends P ↔ P next :=
  ends_success

@[simp] theorem ends_miss : (miss pos name : Reply α).Ends P :=
  ends_failure

@[simp] theorem ends_map {reply : Reply α} {f : α → β} : (reply.map f).Ends P ↔ reply.Ends P := by
  obtain ⟨outcome, reach⟩ := reply
  cases outcome <;> simp [map, Outcome.map]

@[simp] theorem ends_after {reply : Reply α} :
    (reply.after earlier).Ends P ↔ reply.Ends P := Iff.rfl

theorem Ends.mono {reply : Reply α} (h : reply.Ends P) (hPQ : ∀ next, P next → Q next) :
    reply.Ends Q :=
  fun value next heq => hPQ next (h value next heq)

end Reply

/-! ### Terminals -/

namespace Engine

open Cursor

variable {text : List Char} {c : Cursor}

theorem startsWith_bound (hc : c.On text) (h : c.startsWith literal = true) :
    c.pos + literal.length ≤ text.length := by
  simp only [startsWith, Bool.and_eq_true, beq_iff_eq, List.isPrefixOf_iff_prefix] at h
  have hle := h.2.length_le
  have := hc.rest_length
  have := hc.excess_eq
  omega

theorem leads_literal (hc : c.On text) (h : c.startsWith literal = true) :
    Leads text c (c.advance literal.length) ∧
      (literal.isEmpty = false → c.pos < (c.advance literal.length).pos) := by
  have hbound := startsWith_bound hc h
  refine ⟨⟨hc.advance hbound, fun _ => ⟨Nat.le_add_right _ _, hbound⟩, fun _ => by omega⟩, ?_⟩
  intro hne
  have : literal.length ≠ 0 := by simpa using hne
  simp only [advance]
  omega

theorem matchText_ends (hc : c.On text) (literal : List Char) (name : String) :
    (matchText literal name c).Ends fun next =>
      Leads text c next ∧ (literal.isEmpty = false → c.pos < next.pos) := by
  unfold matchText
  split
  next h => simpa only [Reply.ends_succeed] using leads_literal hc h
  next => exact Reply.ends_miss

theorem matchKeyword_ends (hc : c.On text) (word : List Char) (name : String) :
    (matchKeyword word name c).Ends fun next =>
      Leads text c next ∧ (word.isEmpty = false → c.pos < next.pos) := by
  unfold matchKeyword
  split
  next h =>
    rw [Bool.and_eq_true] at h
    simpa only [Reply.ends_succeed] using leads_literal hc h.1
  next => exact Reply.ends_miss

theorem matchToken_ends (hc : c.On text) (shape : Pattern) (name : String) :
    (matchToken shape name c).Ends fun next =>
      Leads text c next ∧ (shape.nullable = false → c.pos < next.pos) := by
  unfold matchToken
  split
  next taken h =>
    have hle := (Pattern.match?_accepts h).1
    rw [hc.rest_length] at hle
    have hpos : (c.clamp.advance taken).pos = min c.pos text.length + taken := by
      rw [advance, hc.clamp_pos]
    rw [Reply.ends_succeed]
    have hnext : (c.clamp.advance taken).On text := hc.clamp.advance (by rw [hc.clamp_pos]; omega)
    refine ⟨⟨hnext, fun _ => by omega, fun _ => by omega⟩, ?_⟩
    intro hn
    have := Pattern.match?_pos hn h
    omega
  next => exact Reply.ends_miss

theorem matchEnd_ends (hc : c.On text) : (matchEnd c).Ends (Leads text c) := by
  unfold matchEnd
  split
  · exact Reply.ends_succeed.mpr (Leads.refl hc)
  · exact Reply.ends_miss

end Engine
end AgentLang.Parse
