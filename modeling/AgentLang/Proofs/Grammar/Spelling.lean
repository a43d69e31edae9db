import AgentLang.Proofs.Grammar.Taking

/-!
# Words and what follows them

A parser reads a word wherever it stands, as long as the same follows. Each way of building parsers
has a rule that joins the words of its parts. A word with nothing behind it is a whole text.
-/

namespace AgentLang

open List

namespace Grammar

open Verdict
open Parse (Cursor Pattern Engine)
open Parse.Parser (lit)

variable {α β : Type} {p : Parser α} {q : Parser β} {v : α} {u : β} {w z rest : List Char}

/-- The parser reads the word as the value, wherever it stands before the rest. -/
def Reads (p : Parser α) (v : α) (w rest : List Char) : Prop :=
  ∀ front, read (front ++ (w ++ rest)) p front.length = .ok v (front.length + w.length)

/-- The parser misses, wherever the rest begins. -/
def Misses (p : Parser α) (rest : List Char) : Prop :=
  ∀ front, read (front ++ rest) p front.length = .miss

/-- The parser reads the whole of the text as the value. -/
def ReadsWhole (p : Parser α) (v : α) (text : List Char) : Prop :=
  ∃ reach, run? p text 0 = some ⟨.success v (Cursor.ofPos text text.length), reach⟩

theorem Reads.whole (h : Reads p v w []) : ReadsWhole p v w := by
  have hread := h []
  rw [append_nil, nil_append, length_nil, Nat.zero_add] at hread
  exact run?_of_read hread

/-- A text is read as a whole in one way. -/
theorem ReadsWhole.unique (h : ReadsWhole p v w) (h' : ReadsWhole p v' w) : v = v' := by
  obtain ⟨reach, h⟩ := h
  obtain ⟨reach', h'⟩ := h'
  cases h.symm.trans h'
  rfl

theorem drop_front (front rest : List Char) : (front ++ rest).drop front.length = rest :=
  drop_left

theorem front_le (front rest : List Char) : front.length ≤ (front ++ rest).length := by
  rw [length_append]
  exact Nat.le_add_right _ _

/-! ### Parsers in order -/

/-- A word is read before another one. -/
theorem Reads.before (h : Reads p v w (z ++ rest)) (front : List Char) :
    read (front ++ (w ++ z ++ rest)) p front.length = .ok v (front.length + w.length) := by
  rw [append_assoc]
  exact h front

/-- A word is read behind another one. -/
theorem Reads.behind (h : Reads q u z rest) (front w : List Char) :
    read (front ++ (w ++ z ++ rest)) q (front.length + w.length) =
      .ok u (front.length + (w ++ z).length) := by
  have hread := h (front ++ w)
  rw [append_assoc, length_append] at hread
  rw [append_assoc, hread, length_append, Nat.add_assoc]

theorem Reads.map (f : α → β) (h : Reads p v w rest) : Reads (f <$> p) (f v) w rest := by
  intro front
  rw [read_fmap, h front]
  rfl

theorem Reads.skip (hp : Reads p v w (z ++ rest)) (hq : Reads q u z rest) :
    Reads (p *> q) u (w ++ z) rest := by
  intro front
  rw [read_skip, hp.before front]
  exact hq.behind front w

theorem Reads.keep (hp : Reads p v w (z ++ rest)) (hq : Reads q u z rest) :
    Reads (p <* q) v (w ++ z) rest := by
  intro front
  rw [read_keep, hp.before front]
  exact congrArg (Verdict.map fun _ => v) (hq.behind front w)

theorem Reads.skip_nil (hp : Reads p v w rest) (hq : Reads q u [] rest) :
    Reads (p *> q) u w rest := by
  have h := Reads.skip (z := []) hp hq
  rwa [append_nil] at h

theorem Reads.keep_nil (hp : Reads p v w rest) (hq : Reads q u [] rest) :
    Reads (p <* q) v w rest := by
  have h := Reads.keep (z := []) hp hq
  rwa [append_nil] at h

theorem Reads.ap {p : Parser (β → α)} {f : β → α} (hp : Reads p f w (z ++ rest))
    (hq : Reads q u z rest) : Reads (p <*> q) (f u) (w ++ z) rest := by
  intro front
  rw [read_ap, hp.before front]
  exact congrArg (Verdict.map f) (hq.behind front w)

theorem Reads.ap_nil {p : Parser (β → α)} {f : β → α} (hp : Reads p f w rest)
    (hq : Reads q u [] rest) : Reads (p <*> q) (f u) w rest := by
  have h := Reads.ap (z := []) hp hq
  rwa [append_nil] at h

theorem Reads.call {r : Rule} {v : r.Out} (h : Reads (bodyOf r) v w rest) :
    Reads (Parse.Parser.call (S := language) r) v w rest := by
  intro front
  rw [read_call]
  exact h front

/-! ### Alternatives and repetition -/

theorem Reads.choice_head (h : Reads p v w rest) : Reads (.choice (p :: ps)) v w rest := by
  intro front
  rw [read_choice_cons, h front]
  rfl

theorem Reads.choice_tail (hp : Misses p (w ++ rest)) (h : Reads (.choice ps) v w rest) :
    Reads (.choice (p :: ps)) v w rest := by
  intro front
  rw [read_choice_cons, hp front, miss_orElse]
  exact h front

theorem Reads.many_nil (h : Misses p rest) : Reads (.many p) [] [] rest := by
  intro front
  rw [nil_append, read_many, h front]
  rfl

theorem Reads.many_cons (hw : w ≠ []) (hp : Reads p v w (z ++ rest)) (h : Reads (.many p) vs z rest) :
    Reads (.many p) (v :: vs) (w ++ z) rest := by
  intro front
  have hmoves : front.length + w.length ≠ front.length := by
    have := length_pos_iff.mpr hw
    omega
  rw [read_many, hp.before front]
  dsimp only
  rw [if_neg hmoves, h.behind front w]
  rfl

/-! ### Terminals -/

theorem Reads.text (literal : List Char) (name : String) :
    Reads (.text literal name) (String.ofList literal) literal rest := by
  intro front
  have hstarts : literal.isPrefixOf (literal ++ rest) = true :=
    isPrefixOf_iff_prefix.mpr (prefix_append literal rest)
  rw [read_text (front_le _ _), drop_front, if_pos hstarts]

theorem Reads.lit (literal : String) : Reads (lit literal) literal literal.toList rest := by
  have h : Reads _ _ _ rest := .text literal.toList (Text.quotePlain literal)
  rw [String.ofList_toList] at h
  exact h

theorem Reads.word {literal : String} (h : rest.head?.any Engine.isWordChar = false) :
    Reads (.word literal) literal literal.toList rest := by
  intro front
  have hstarts : literal.toList.isPrefixOf (literal.toList ++ rest) = true :=
    isPrefixOf_iff_prefix.mpr (prefix_append _ rest)
  rw [Parse.Parser.word, read_keyword (front_le _ _), drop_front, drop_left,
    if_pos ⟨hstarts, h⟩, String.ofList_toList]

theorem Reads.token (name : String) (h : shape.Takes w rest) :
    Reads (.token shape name) (String.ofList w) w rest := by
  intro front
  rw [read_token (front_le _ _), drop_front, h]
  dsimp only
  rw [take_left]

/-- A shape that may be missing takes nothing where it cannot begin. -/
theorem Reads.nothing (hcertain : shape.certain = true) (h : shape.begins rest.head? = false) :
    Reads (.token shape name) "" [] rest := by
  obtain ⟨k, hk⟩ := Pattern.match?_of_certain hcertain rest
  obtain rfl := Pattern.match?_of_not_begins h hk
  exact Reads.token (w := []) name hk

theorem misses_of_begins (h : begins rest.head? p = false)
    (hp : p.nullable (fun _ => false) = false) : Misses p rest := by
  intro front
  apply read_eq_miss (front_le _ _) _ hp
  rw [drop_front]
  exact h

theorem Misses.map (f : α → β) (h : Misses p rest) : Misses (f <$> p) rest := by
  intro front
  rw [read_fmap, h front]
  rfl

theorem Misses.skip (h : Misses p rest) : Misses (p *> q) rest := by
  intro front
  rw [read_skip, h front]
  rfl

theorem Misses.keep (h : Misses p rest) : Misses (p <* q) rest := by
  intro front
  rw [read_keep, h front]
  rfl

theorem Misses.choice_nil : Misses (.choice [] : Parser α) rest := by
  intro front
  exact read_choice_nil

theorem Misses.choice_cons (hp : Misses p rest) (h : Misses (.choice ps) rest) :
    Misses (.choice (p :: ps)) rest := by
  intro front
  rw [read_choice_cons, hp front, miss_orElse]
  exact h front

theorem Misses.lit {literal : String} (h : ¬literal.toList <+: rest) : Misses (lit literal) rest := by
  intro front
  have hstarts : ¬literal.toList.isPrefixOf rest = true := mt isPrefixOf_iff_prefix.mp h
  rw [Parse.Parser.lit, read_text (front_le _ _), drop_front, if_neg hstarts]

theorem Misses.token (h : shape.match? rest = none) : Misses (.token shape name) rest := by
  intro front
  rw [read_token (front_le _ _), drop_front, h]

theorem misses_of_stops (h : Stops heads rest) (hp : shut heads p = true) : Misses p rest := by
  simp only [shut, still, Bool.and_eq_true, Bool.not_eq_true'] at hp
  exact misses_of_begins (h.eq_false (f := (begins · p)) hp.2.1 hp.2.2) hp.1

/-! ### Words that were read -/

section

variable {text : List Char} {i n : Nat}

theorem slice_of_drop (hin : i ≤ n) (hn : n ≤ text.length) (h : text.drop i = w ++ text.drop n) :
    (text.take n).drop i = w := by
  have hlength : w.length = n - i := by
    have hlengths := congrArg List.length h
    rw [length_append, length_drop, length_drop] at hlengths
    omega
  rw [drop_take, h, ← hlength, take_left]

theorem drop_of_text {literal : List Char} {name v : String} (hi : i ≤ text.length)
    (h : read text (.text literal name) i = .ok v n) : text.drop i = literal ++ text.drop n := by
  rw [read_text hi] at h
  split at h
  next hstarts =>
    cases h
    obtain ⟨tail, htail⟩ := isPrefixOf_iff_prefix.mp hstarts
    rw [← drop_drop, ← htail, drop_left]
  next => cases h

theorem drop_of_token {shape : Pattern} {name v : String} (hi : i ≤ text.length)
    (h : read text (.token shape name) i = .ok v n) :
    text.drop i = v.toList ++ text.drop n ∧ shape.Takes v.toList (text.drop n) := by
  rw [read_token hi] at h
  split at h
  next k hk =>
    cases h
    have hle := (Pattern.match?_accepts hk).1
    have hlength : ((text.drop i).take k).length = k := length_take_of_le hle
    rw [String.toList_ofList, ← drop_drop]
    refine ⟨(take_append_drop k _).symm, ?_⟩
    rw [Pattern.Takes, take_append_drop, hlength]
    exact hk
  next => cases h

end

end Grammar
end AgentLang
